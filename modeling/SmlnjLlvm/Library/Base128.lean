import Mathlib.Tactic.Ring
import Mathlib.Tactic.Linarith

/-!
# Numbers in groups of seven bits

A number is a string of bytes whose last one alone has the high bit clear. The
low seven bits of the bytes are its digits, the lowest first. In the signed
reading the last group is a number in two's complement.
-/

namespace SmlnjLlvm.Base128

def group (b : UInt8) : Nat := b.toNat % 128

/-- The high bit announces another byte. -/
def Continues (b : UInt8) : Prop := 128 ≤ b.toNat

instance : DecidablePred Continues := fun b => inferInstanceAs (Decidable (128 ≤ b.toNat))

def unsignedValue : List UInt8 → Nat
  | [] => 0
  | b :: rest => group b + 128 * unsignedValue rest

def signedGroup (b : UInt8) : Int := if 64 ≤ group b then group b - 128 else group b

def signedValue : List UInt8 → Int
  | [] => 0
  | [b] => signedGroup b
  | b :: c :: rest => group b + 128 * signedValue (c :: rest)

/-- The bytes are one number and nothing else. -/
def Terminated (num : List UInt8) : Prop :=
  ∃ init last, num = init ++ [last] ∧ (∀ b ∈ init, Continues b) ∧ ¬Continues last

theorem group_lt (b : UInt8) : group b < 128 := Nat.mod_lt _ (by decide)

theorem Terminated.singleton {b : UInt8} (h : ¬Continues b) : Terminated [b] :=
  ⟨[], b, rfl, by simp, h⟩

theorem Terminated.cons {b : UInt8} {num : List UInt8} (hb : Continues b) (h : Terminated num) :
    Terminated (b :: num) := by
  obtain ⟨init, last, rfl, hinit, hlast⟩ := h
  refine ⟨b :: init, last, rfl, ?_, hlast⟩
  intro c hc
  rcases List.mem_cons.mp hc with rfl | hc
  · exact hb
  · exact hinit c hc

theorem Terminated.append {init num : List UInt8} (hinit : ∀ b ∈ init, Continues b)
    (h : Terminated num) : Terminated (init ++ num) := by
  induction init with
  | nil => exact h
  | cons b init ih =>
    exact (ih fun c hc => hinit c (List.mem_cons_of_mem b hc)).cons
      (hinit b List.mem_cons_self)

theorem Terminated.ne_nil {num : List UInt8} (h : Terminated num) : num ≠ [] := by
  obtain ⟨init, last, rfl, _, _⟩ := h
  simp

theorem Terminated.cases {b : UInt8} {rest : List UInt8} (h : Terminated (b :: rest)) :
    rest = [] ∧ ¬Continues b ∨ Continues b ∧ Terminated rest := by
  obtain ⟨init, last, heq, hinit, hlast⟩ := h
  cases init with
  | nil =>
    obtain ⟨rfl, rfl⟩ := List.cons_eq_cons.mp heq
    exact Or.inl ⟨rfl, hlast⟩
  | cons c init =>
    obtain ⟨rfl, rfl⟩ := List.cons_eq_cons.mp heq
    exact Or.inr ⟨hinit b List.mem_cons_self,
      init, last, rfl, fun d hd => hinit d (List.mem_cons_of_mem b hd), hlast⟩

theorem Terminated.split {num : List UInt8} (h : Terminated num) {m : Nat}
    (hm : m + 1 < num.length) :
    ∃ init b rest, num = init ++ b :: rest ∧ init.length = m ∧ (∀ c ∈ init, Continues c) ∧
      Continues b ∧ Terminated rest := by
  induction m generalizing num with
  | zero =>
    cases num with
    | nil => exact absurd rfl h.ne_nil
    | cons b rest =>
      rcases h.cases with ⟨rfl, -⟩ | ⟨hb, hrest⟩
      · exact absurd hm (by simp)
      · exact ⟨[], b, rest, rfl, rfl, by simp, hb, hrest⟩
  | succ m ih =>
    cases num with
    | nil => exact absurd rfl h.ne_nil
    | cons c num =>
      rcases h.cases with ⟨rfl, -⟩ | ⟨hc, hnum⟩
      · exact absurd hm (by simp)
      · rw [List.length_cons] at hm
        obtain ⟨init, b, rest, rfl, rfl, hinit, hb, hrest⟩ := ih hnum (by omega)
        refine ⟨c :: init, b, rest, rfl, rfl, ?_, hb, hrest⟩
        intro d hd
        rcases List.mem_cons.mp hd with rfl | hd
        · exact hc
        · exact hinit d hd

theorem unsignedValue_append (xs ys : List UInt8) :
    unsignedValue (xs ++ ys) = unsignedValue xs + 128 ^ xs.length * unsignedValue ys := by
  induction xs with
  | nil => simp [unsignedValue]
  | cons b xs ih =>
    rw [List.cons_append, unsignedValue, ih, unsignedValue, List.length_cons, Nat.pow_succ]
    ring

theorem signedValue_cons {b : UInt8} {rest : List UInt8} (h : rest ≠ []) :
    signedValue (b :: rest) = group b + 128 * signedValue rest := by
  cases rest with
  | nil => exact absurd rfl h
  | cons c rest => rfl

theorem signedValue_append {ys : List UInt8} (h : ys ≠ []) (xs : List UInt8) :
    signedValue (xs ++ ys) = unsignedValue xs + 128 ^ xs.length * signedValue ys := by
  induction xs with
  | nil => simp [unsignedValue]
  | cons b xs ih =>
    rw [List.cons_append, signedValue_cons (List.append_ne_nil_of_right_ne_nil xs h), ih,
      unsignedValue, List.length_cons, pow_succ, Nat.cast_add, Nat.cast_mul]
    ring

theorem unsignedValue_lt (num : List UInt8) : unsignedValue num < 128 ^ num.length := by
  induction num with
  | nil => simp [unsignedValue]
  | cons b num ih =>
    have hb := group_lt b
    rw [unsignedValue, List.length_cons, Nat.pow_succ]
    omega

/-- The integers that have a signed representation of `n + 1` groups. -/
def FitsSigned (n : Nat) (v : Int) : Prop := -(64 * 128 ^ n) ≤ v ∧ v < 64 * 128 ^ n

theorem signedGroup_fits (b : UInt8) : FitsSigned 0 (signedGroup b) := by
  have hb := group_lt b
  unfold signedGroup FitsSigned
  split
  · omega
  · omega

theorem fitsSigned_succ_iff {g : Nat} (hg : g < 128) (n : Nat) (v : Int) :
    FitsSigned (n + 1) (g + 128 * v) ↔ FitsSigned n v := by
  have hpow : (128 : Int) ^ (n + 1) = 128 * 128 ^ n := by rw [pow_succ, mul_comm]
  unfold FitsSigned
  rw [hpow]
  generalize (128 : Int) ^ n = m
  constructor
  · rintro ⟨hlow, hhigh⟩
    constructor <;> omega
  · rintro ⟨hlow, hhigh⟩
    constructor <;> omega

theorem signedValue_fits (num : List UInt8) (b : UInt8) :
    FitsSigned num.length (signedValue (num ++ [b])) := by
  induction num with
  | nil => exact signedGroup_fits b
  | cons c num ih =>
    rw [List.cons_append, signedValue_cons (by simp), List.length_cons,
      fitsSigned_succ_iff (group_lt c)]
    exact ih

theorem unsignedValue_padding {pad : UInt8} (hpad : group pad = 0) (k : Nat) :
    unsignedValue (List.replicate k pad) = 0 := by
  induction k with
  | zero => rfl
  | succ k ih => rw [List.replicate_succ, unsignedValue, ih, hpad]

theorem signedValue_padding {pad : UInt8} {last : UInt8} {v : Int}
    (hpad : (group pad : Int) + 128 * v = v) (hlast : signedGroup last = v) (k : Nat) :
    signedValue (List.replicate k pad ++ [last]) = v := by
  induction k with
  | zero => exact hlast
  | succ k ih =>
    rw [List.replicate_succ, List.cons_append, signedValue_cons (by simp), ih, hpad]

end SmlnjLlvm.Base128
