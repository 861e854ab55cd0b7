import Mathlib.Data.List.Forall2
import Mathlib.Data.Nat.Bitwise
import Mathlib.Tactic.Ring

/-!
# Byte decoders over a source with a late end-of-input flag

A source is the unread suffix of a byte string together with a flag that is
cleared only by a read that found no byte. A decoder either fails or returns a
value and the remaining source. `Decodes` is the round-trip half of a codec,
closed under sequencing; `Cut` describes what a decoder does on every proper
prefix of an encoding, including the single byte a late flag lets through.
-/

namespace SmlnjLlvm.ByteDecoder

abbrev Bytes := List UInt8

structure Source where
  rest : Bytes
  good : Bool
  deriving DecidableEq, Repr

def Source.start (bytes : Bytes) : Source := ⟨bytes, true⟩

/-- The source after a read that ran past the last byte. -/
def Source.dead : Source := ⟨[], false⟩

def Decoder (ε α : Type) := Source → Except ε (α × Source)

instance : Monad (Decoder ε) where
  pure a := fun s => .ok (a, s)
  bind p f := fun s =>
    match p s with
    | .ok (a, s') => f a s'
    | .error e => .error e

@[simp] theorem pure_apply (a : α) (s : Source) :
    (pure a : Decoder ε α) s = .ok (a, s) := rfl

variable {a : α} {accepted : α → Prop} {bytes xs ys : Bytes} {e : ε} {f : α → Decoder ε β}
  {last : Prop} {p : Decoder ε α}

theorem bind_ok {s s' : Source} (h : p s = .ok (a, s')) : (p >>= f) s = f a s' := by
  simp only [bind, h]

theorem bind_error {s : Source} (h : p s = .error e) : (p >>= f) s = .error e := by
  simp only [bind, h]

/-- Run a decoder a fixed number of times and collect the values in order. -/
def readMany (p : Decoder ε α) : Nat → Decoder ε (List α)
  | 0 => pure []
  | count + 1 => do
      let value ← p
      let values ← readMany p count
      pure (value :: values)

/-- The decoder reads exactly `bytes`, returns `value`, and keeps the flag. -/
def Decodes (p : Decoder ε α) (bytes : Bytes) (value : α) : Prop :=
  ∀ tail, p (.start (bytes ++ tail)) = .ok (value, .start tail)

theorem Decodes.pure (value : α) : Decodes (pure value : Decoder ε α) [] value :=
  fun _ => rfl

theorem Decodes.bind {b : β} (hp : Decodes p xs a) (hf : Decodes (f a) ys b) :
    Decodes (p >>= f) (xs ++ ys) b := by
  intro tail
  rw [List.append_assoc, bind_ok (hp (ys ++ tail))]
  exact hf tail

theorem Decodes.map (hp : Decodes p xs a) (g : α → β) :
    Decodes (p >>= fun v => Pure.pure (g v)) xs (g a) := by
  intro tail
  rw [bind_ok (hp tail)]
  rfl

theorem Decodes.many {encodings : List Bytes} {items : List ι} (dec : ι → α)
    (h : List.Forall₂ (fun xs i => Decodes p xs (dec i)) encodings items) :
    Decodes (readMany p items.length) encodings.flatten (items.map dec) := by
  induction h with
  | nil => exact Decodes.pure []
  | cons hd _ ih => exact hd.bind (ih.map _)

theorem Decodes.prefix_free {tail : Bytes} {b : α} (hx : Decodes p xs a) (hy : Decodes p ys b)
    (h : xs ++ tail = ys) : tail = [] ∧ a = b := by
  have h₁ := hx tail
  have h₂ := hy []
  rw [h] at h₁
  rw [List.append_nil, h₁] at h₂
  simp only [Except.ok.injEq, Prod.mk.injEq, Source.start, Source.mk.injEq, and_true] at h₂
  exact ⟨h₂.2, h₂.1⟩

theorem Decodes.unique {b : α} (ha : Decodes p bytes a) (hb : Decodes p bytes b) : a = b :=
  (ha.prefix_free hb (List.append_nil bytes)).2

/-- A run that ends with the flag set used up at least `size` of its value. -/
def Takes (size : α → Nat) (p : Decoder ε α) : Prop :=
  ∀ s a s', p s = .ok (a, s') → s'.good = true →
    s.good = true ∧ s'.rest.length + size a ≤ s.rest.length

theorem Takes.pure (a : α) : Takes (fun _ => 0) (pure a : Decoder ε α) := by
  rintro s _ _ ⟨⟩ hg
  exact ⟨hg, Nat.le_refl _⟩

theorem Takes.bind {k : Nat} {size : β → Nat} (hp : Takes (fun _ => k) p)
    (hf : ∀ a, Takes size (f a)) : Takes (fun b => k + size b) (p >>= f) := by
  intro s b s' h hg
  cases hs : p s with
  | error e =>
    rw [bind_error hs] at h
    cases h
  | ok r =>
    obtain ⟨a, mid⟩ := r
    rw [bind_ok hs] at h
    obtain ⟨hmid, hlen⟩ := hf a mid b s' h hg
    obtain ⟨hgood, hlen'⟩ := hp s a mid hs hmid
    refine ⟨hgood, ?_⟩
    dsimp only at hlen' ⊢
    omega

theorem Takes.many (hp : Takes (fun _ => 1) p) (count : Nat) :
    Takes List.length (readMany p count) := by
  induction count with
  | zero =>
    rintro s _ _ ⟨⟩ hg
    exact ⟨hg, Nat.le_refl _⟩
  | succ count ih =>
    intro s values s' h hg
    -- the first value takes a byte, the others take their number
    have hrest : ∀ a, Takes (fun values => values.length - 1)
        (readMany p count >>= fun values => (Pure.pure (a :: values) : Decoder ε (List α))) := by
      intro a t values t' ht htg
      cases hr : readMany p count t with
      | error e =>
        rw [bind_error hr] at ht
        cases ht
      | ok r =>
        rw [bind_ok hr] at ht
        cases ht
        simpa using ih t r.1 r.2 hr htg
    obtain ⟨hgood, hlen⟩ := hp.bind hrest s values s' h hg
    refine ⟨hgood, ?_⟩
    dsimp only at hlen
    omega

/-! ## Truncated input -/

/-- The decoder needs at least one more byte, so it fails on a dead source. -/
def Hungry (e : ε) (p : Decoder ε α) : Prop := p .dead = .error e

theorem Hungry.bind (h : Hungry e p) : Hungry e (p >>= f) := bind_error h

theorem Hungry.many (h : Hungry e p) {count : Nat} (hc : count ≠ 0) :
    Hungry e (readMany p count) := by
  obtain ⟨k, rfl⟩ := Nat.exists_eq_succ_of_ne_zero hc
  exact Hungry.bind h

/--
The decoder on every proper prefix of an encoding. It fails when two bytes or
more are missing, or when `last` holds; otherwise exactly the last byte is
missing, and the decoder accepts a value in `accepted` from a dead source.
-/
def Cut (e : ε) (p : Decoder ε α) (bytes : Bytes) (last : Prop) (accepted : α → Prop) : Prop :=
  ∀ pre suf, bytes = pre ++ suf → suf ≠ [] →
    (2 ≤ suf.length ∨ last → p (.start pre) = .error e) ∧
    (¬ (2 ≤ suf.length ∨ last) → ∃ a, accepted a ∧ p (.start pre) = .ok (a, .dead))

theorem Cut.error_iff {pre suf : Bytes} (h : Cut e p bytes last accepted)
    (hb : bytes = pre ++ suf) (hs : suf ≠ []) :
    p (.start pre) = .error e ↔ 2 ≤ suf.length ∨ last := by
  obtain ⟨hfail, haccept⟩ := h pre suf hb hs
  refine ⟨fun herr => ?_, hfail⟩
  by_contra hn
  obtain ⟨a, _, hok⟩ := haccept hn
  rw [hok] at herr
  cases herr

theorem Cut.nil : Cut e p [] last accepted := by
  intro pre suf h hs
  exact absurd (List.append_eq_nil_iff.mp h.symm).2 hs

theorem Cut.congr {last' : Prop} (h : Cut e p bytes last accepted) (hl : last ↔ last') :
    Cut e p bytes last' accepted := by
  rwa [← propext hl]

theorem Cut.mono {accepted' : α → Prop} (h : Cut e p bytes last accepted)
    (ha : ∀ a, accepted a → accepted' a) : Cut e p bytes last accepted' := by
  intro pre suf hb hs
  obtain ⟨hfail, haccept⟩ := h pre suf hb hs
  refine ⟨hfail, fun hn => ?_⟩
  obtain ⟨a, hq, hok⟩ := haccept hn
  exact ⟨a, ha a hq, hok⟩

theorem Cut.bind_error {pre suf : Bytes} (hp : Cut e p xs last accepted)
    (hf : ∀ a, accepted a → Hungry e (f a)) (hb : xs = pre ++ suf) (hs : suf ≠ []) :
    (p >>= f) (.start pre) = .error e := by
  obtain ⟨hfail, haccept⟩ := hp pre suf hb hs
  by_cases hc : 2 ≤ suf.length ∨ last
  · exact ByteDecoder.bind_error (hfail hc)
  · obtain ⟨a, hq, hok⟩ := haccept hc
    rw [bind_ok hok]
    exact hf a hq

theorem Cut.bind {last' : Prop} {accepted' : β → Prop} (hd : Decodes p xs a)
    (hp : Cut e p xs last accepted) (hungry : ∀ a, accepted a → Hungry e (f a))
    (hf : Cut e (f a) ys last' accepted') (hy : ys ≠ []) :
    Cut e (p >>= f) (xs ++ ys) last' accepted' := by
  intro pre suf hb hs
  rcases List.append_eq_append_iff.mp hb with ⟨mid, hpre, hys⟩ | ⟨mid, hxs, hsuf⟩
  · -- the whole first encoding is present
    subst hpre
    rw [bind_ok (hd mid)]
    exact hf mid suf hys hs
  · by_cases hm : mid = []
    · subst hm
      simp only [List.append_nil, List.nil_append] at hxs hsuf
      subst hxs hsuf
      have hdx : p (.start xs) = .ok (a, .start []) := by simpa using hd []
      rw [bind_ok hdx]
      exact hf [] suf rfl hs
    · -- the cut is inside the first encoding, so two bytes or more are missing
      have hlen : 2 ≤ suf.length := by
        have h₁ := List.length_pos_of_ne_nil hm
        have h₂ := List.length_pos_of_ne_nil hy
        rw [hsuf, List.length_append]
        omega
      exact ⟨fun _ => hp.bind_error hungry hxs hm, fun hn => absurd (Or.inl hlen) hn⟩

theorem Cut.bind_hungry {accepted' : β → Prop} (hp : Cut e p xs last accepted)
    (hungry : ∀ a, accepted a → Hungry e (f a)) : Cut e (p >>= f) xs True accepted' :=
  fun _ _ hb hs =>
    ⟨fun _ => hp.bind_error hungry hb hs, fun hn => absurd (Or.inr trivial) hn⟩

theorem Cut.map (hp : Cut e p xs last accepted) (g : α → β) :
    Cut e (p >>= fun v => Pure.pure (g v)) xs last (fun _ => True) := by
  intro pre suf hb hs
  obtain ⟨hfail, haccept⟩ := hp pre suf hb hs
  refine ⟨fun hc => ByteDecoder.bind_error (hfail hc), fun hn => ?_⟩
  obtain ⟨a, _, hok⟩ := haccept hn
  exact ⟨g a, trivial, bind_ok hok⟩

theorem Cut.many {encodings : List Bytes} {items : List ι} (dec : ι → α) (last : ι → Prop)
    (hungry : Hungry e p) (h : List.Forall₂ (fun xs i => xs ≠ [] ∧ Decodes p xs (dec i) ∧
      Cut e p xs (last i) fun _ => True) encodings items) :
    Cut e (readMany p items.length) encodings.flatten
      (∀ i ∈ items.getLast?, last i) fun _ => True := by
  induction h with
  | nil => exact Cut.nil
  | @cons xs i encs is hi hrest ih =>
    obtain ⟨_, hd, hx⟩ := hi
    cases hrest with
    | nil =>
      -- the last item is followed by no read at all
      intro pre suf hb hs
      obtain ⟨hfail, haccept⟩ := hx pre suf (by simpa using hb) hs
      simp only [List.getLast?_singleton, Option.mem_def, Option.some.injEq, forall_eq']
      refine ⟨fun hc => ByteDecoder.bind_error (hfail hc), fun hn => ?_⟩
      obtain ⟨a, _, hok⟩ := haccept hn
      exact ⟨[a], trivial, bind_ok hok⟩
    | @cons ys j encs' is' hj hrest' =>
      have hy : (ys :: encs').flatten ≠ [] := by
        simp [hj.1]
      have hlast : (∀ u ∈ (i :: j :: is').getLast?, last u) ↔
          ∀ u ∈ (j :: is').getLast?, last u := by
        rw [List.getLast?_cons_cons]
      refine Cut.congr ?_ hlast.symm
      rw [List.flatten_cons]
      refine Cut.bind hd hx (fun u _ => ?_) ?_ hy
      · exact (hungry.many (Nat.succ_ne_zero _)).bind
      · exact ih.map (fun ws => dec i :: ws)

end SmlnjLlvm.ByteDecoder

/-!
## Big-endian accumulation of bytes

`beFrom` is the loop `v = (v << 8) | b` of a decoder, on naturals. Masks,
shifts and disjoint unions of bit fields are read as arithmetic once, here.
-/

namespace SmlnjLlvm.BigEndian

open ByteDecoder

/-- Shift one byte after the other into the accumulator. -/
def beFrom (acc : Nat) : Bytes → Nat
  | [] => acc
  | b :: rest => beFrom ((acc <<< 8) ||| b.toNat) rest

theorem shift_or_byte (acc : Nat) (b : UInt8) : (acc <<< 8) ||| b.toNat = acc * 256 + b.toNat := by
  have hb : b.toNat < 2 ^ 8 := b.toNat_lt
  rw [← Nat.shiftLeft_add_eq_or_of_lt hb, Nat.shiftLeft_eq]

theorem beFrom_cons (acc : Nat) (b : UInt8) (rest : Bytes) :
    beFrom acc (b :: rest) = beFrom (acc * 256 + b.toNat) rest := by
  rw [beFrom, shift_or_byte]

theorem beFrom_append (acc : Nat) (xs ys : Bytes) :
    beFrom acc (xs ++ ys) = beFrom (beFrom acc xs) ys := by
  induction xs generalizing acc with
  | nil => rfl
  | cons b xs ih => exact ih _

theorem beFrom_eq (acc : Nat) (bytes : Bytes) :
    beFrom acc bytes = acc * 256 ^ bytes.length + beFrom 0 bytes := by
  induction bytes generalizing acc with
  | nil => simp [beFrom]
  | cons b rest ih =>
    rw [beFrom_cons, beFrom_cons, ih, ih (0 * 256 + b.toNat)]
    simp only [List.length_cons, Nat.pow_succ]
    ring

theorem byte_ofNat_toNat {n : Nat} (h : n < 256) : (UInt8.ofNat n).toNat = n :=
  UInt8.toNat_ofNat_of_lt' h

theorem byte_toNat_ofNat (n : Nat) : (UInt8.ofNat n).toNat = n % 256 := UInt8.toNat_ofNat'

theorem field_or {width field low : Nat} (h : low < 2 ^ width) :
    (2 ^ width * field) ||| low = 2 ^ width * field + low :=
  (Nat.two_pow_add_eq_or_of_lt h field).symm

theorem toNat_and_mask (b : UInt8) (k : Nat) (hk : k < 8) :
    (b &&& UInt8.ofNat (2 ^ k - 1)).toNat = b.toNat % 2 ^ k := by
  have hpow : 2 ^ k ≤ 2 ^ 7 := Nat.pow_le_pow_right (by decide) (by omega)
  rw [UInt8.toNat_and, byte_ofNat_toNat (by omega), Nat.and_two_pow_sub_one_eq_mod]

theorem and_bit_ne_zero (b : UInt8) (k : Nat) (hk : k < 8) :
    (b &&& UInt8.ofNat (2 ^ k) ≠ 0) ↔ b.toNat / 2 ^ k % 2 = 1 := by
  have hpow : 2 ^ k ≤ 2 ^ 7 := Nat.pow_le_pow_right (by decide) (by omega)
  rw [ne_eq, ← UInt8.toNat_inj, UInt8.toNat_and, byte_ofNat_toNat (by omega),
    Nat.and_two_pow, Nat.testBit_eq_decide_div_mod_eq]
  by_cases h : b.toNat / 2 ^ k % 2 = 1
  · simp [h]
  · simp [h]

end SmlnjLlvm.BigEndian
