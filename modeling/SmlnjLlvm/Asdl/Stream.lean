import SmlnjLlvm.Library.ByteDecoder

/-!
# ASDL input streams

`instream` wraps a standard input stream. Its `getb` and `getc` test `good()`
before the read, and `istream::get` clears that flag only when it finds no
byte, so the first read past the end yields the truncated `EOF` value and the
second one reports the error.
-/

namespace SmlnjLlvm.Asdl

open ByteDecoder BigEndian

/-- The two ways a reader of `instream` gives up. -/
inductive DecodeError where
  | invalidTag (tag : Nat) (tyName : String)
  | invalidIOState
  deriving DecidableEq, Repr

abbrev Reader (α : Type) := Decoder DecodeError α

def eofByte : UInt8 := 0xff

def get (is : Source) : UInt8 × Source :=
  match is.rest with
  | b :: rest => (b, ⟨rest, is.good⟩)
  | [] => (eofByte, ⟨[], false⟩)

def getb : Reader UInt8 := fun is =>
  if is.good then .ok (get is) else .error .invalidIOState

def getc : Reader UInt8 := fun is =>
  if is.good then .ok (get is) else .error .invalidIOState

def invalidTag (tag : Nat) (tyName : String) : Reader α := fun _ =>
  .error (.invalidTag tag tyName)

/-! ## The laws of one read -/

theorem getb_decodes (b : UInt8) : Decodes getb [b] b := fun _ => rfl

theorem getb_hungry : Hungry DecodeError.invalidIOState getb := rfl

theorem getb_takes : Takes (fun _ => 1) getb := by
  rintro ⟨rest, good⟩ b s' h hg
  cases good with
  | false => cases h
  | true =>
    cases rest with
    | nil =>
      cases h
      cases hg
    | cons c rest =>
      cases h
      exact ⟨rfl, Nat.le_refl _⟩

theorem getb_cut (b : UInt8) :
    Cut DecodeError.invalidIOState getb [b] False (· = eofByte) := by
  intro pre suf hb hs
  cases pre with
  | nil =>
    obtain rfl : suf = [b] := by simpa using hb.symm
    exact ⟨fun h => by simp at h, fun _ => ⟨eofByte, rfl, rfl⟩⟩
  | cons c pre =>
    simp only [List.cons_append, List.cons.injEq] at hb
    exact absurd (List.append_eq_nil_iff.mp hb.2.symm).2 hs

/-! ## Fall-through reads

The readers of integers switch on a length taken from the first byte; case `n`
shifts in one byte and falls through to case `n - 1`.
-/

def fallThrough : Nat → Nat → Reader Nat
  | 0, v => pure v
  | n + 1, v => do
      let b ← getb
      fallThrough n ((v <<< 8) ||| b.toNat)

def leadByte (len init : UInt8 → Nat) (finish : UInt8 → Nat → α) : Reader α := do
  let b0 ← getb
  let v ← fallThrough (len b0) (init b0)
  pure (finish b0 v)

theorem fallThrough_decodes (v : Nat) (bytes : Bytes) :
    Decodes (fallThrough bytes.length v) bytes (beFrom v bytes) := by
  induction bytes generalizing v with
  | nil => exact Decodes.pure v
  | cons b rest ih => exact (getb_decodes b).bind (ih _)

theorem fallThrough_hungry {n : Nat} (hn : n ≠ 0) (v : Nat) :
    Hungry DecodeError.invalidIOState (fallThrough n v) := by
  obtain ⟨k, rfl⟩ := Nat.exists_eq_succ_of_ne_zero hn
  exact getb_hungry.bind

theorem fallThrough_takes (n v : Nat) : Takes (fun _ => 0) (fallThrough n v) := by
  induction n generalizing v with
  | zero => exact Takes.pure v
  | succ n ih =>
    intro is a is' h hg
    obtain ⟨hgood, hlen⟩ := getb_takes.bind (fun b => ih _) is a is' h hg
    refine ⟨hgood, ?_⟩
    dsimp only at hlen ⊢
    omega

def EndsInEof (v : Nat) : Prop := v % 256 = 255

theorem endsInEof_shift (v : Nat) : EndsInEof ((v <<< 8) ||| eofByte.toNat) := by
  rw [EndsInEof, shift_or_byte]
  have h : eofByte.toNat = 255 := rfl
  omega

theorem fallThrough_cut (v : Nat) (bytes : Bytes) :
    Cut DecodeError.invalidIOState (fallThrough bytes.length v) bytes False EndsInEof := by
  induction bytes generalizing v with
  | nil => exact Cut.nil
  | cons b rest ih =>
    cases rest with
    | nil =>
      -- the only byte is missing, and nothing is read after it
      intro pre suf hb hs
      obtain ⟨_, haccept⟩ := getb_cut b pre suf hb hs
      refine ⟨fun h => ?_, fun hn => ?_⟩
      · have hlen := congrArg List.length hb
        simp only [List.length_cons, List.length_nil, List.length_append] at hlen
        exact absurd h (by simp only [or_false]; omega)
      · obtain ⟨a, rfl, hok⟩ := haccept hn
        exact ⟨_, endsInEof_shift v, bind_ok hok⟩
    | cons c rest =>
      refine Cut.bind (getb_decodes b) (getb_cut b) (fun a _ => ?_) (ih _) (by simp)
      exact fallThrough_hungry (Nat.succ_ne_zero _) _

section LeadByte

variable {len init : UInt8 → Nat} {finish : UInt8 → Nat → α} {b0 : UInt8} {rest : Bytes}

theorem leadByte_decodes (h : rest.length = len b0) :
    Decodes (leadByte len init finish) (b0 :: rest) (finish b0 (beFrom (init b0) rest)) := by
  have htail := (fallThrough_decodes (init b0) rest).map (finish b0)
  rw [h] at htail
  exact (getb_decodes b0).bind htail

theorem leadByte_hungry : Hungry DecodeError.invalidIOState (leadByte len init finish) :=
  getb_hungry.bind

theorem leadByte_takes : Takes (fun _ => 1) (leadByte len init finish) :=
  getb_takes.bind fun b0 => (fallThrough_takes (len b0) (init b0)).bind fun v =>
    Takes.pure (finish b0 v)

theorem leadByte_cut (h : rest.length = len b0) (heof : len eofByte ≠ 0) :
    Cut DecodeError.invalidIOState (leadByte len init finish) (b0 :: rest) (rest = [])
      fun a => ∃ v, EndsInEof v ∧ a = finish b0 v := by
  have hungry : ∀ a, a = eofByte → Hungry DecodeError.invalidIOState
      (fallThrough (len a) (init a) >>= fun v => pure (finish a v)) := by
    rintro a rfl
    exact (fallThrough_hungry heof _).bind
  cases rest with
  | nil => exact ((getb_cut b0).bind_hungry hungry).congr (by simp)
  | cons c rest =>
    have htail : Cut DecodeError.invalidIOState
        (fallThrough (len b0) (init b0) >>= fun v => pure (finish b0 v)) (c :: rest) False
        fun a => ∃ v, EndsInEof v ∧ a = finish b0 v := by
      rw [← h]
      intro pre suf hb hs
      obtain ⟨hfail, haccept⟩ := fallThrough_cut (init b0) (c :: rest) pre suf hb hs
      refine ⟨fun hc => bind_error (hfail hc), fun hn => ?_⟩
      obtain ⟨v, hv, hok⟩ := haccept hn
      exact ⟨_, ⟨v, hv, rfl⟩, bind_ok hok⟩
    exact (Cut.bind (getb_decodes b0) (getb_cut b0) hungry htail (by simp)).congr (by simp)

end LeadByte

end SmlnjLlvm.Asdl
