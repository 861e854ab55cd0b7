import SmlnjLlvm.Library.Loop
import SmlnjLlvm.Library.LowBits
import SmlnjLlvm.Support.MathExtras

/-!
# The binary greatest common divisor

Both operands are kept as odd multiples of one power of two. A turn replaces the
larger by the difference, from which the further factors of two are shifted out.
-/

namespace SmlnjLlvm.APIntOps

open Support Words Loop

variable {w : Nat}

def lshrInPlace (A : BitVec w) (ShiftAmt : Nat) : Option (BitVec w) :=
  if ShiftAmt ≤ w then some (A >>> ShiftAmt) else none

def subUnsigned (a b : Nat) : Nat := (a + (2 ^ 32 - b)) % 2 ^ 32

namespace GreatestCommonDivisor

structure Operands (w : Nat) where
  A : BitVec w
  B : BitVec w

def strip (A B : BitVec w) : Option (Operands w × Nat) :=
  let Pow2_A := countr_zero A
  let Pow2_B := countr_zero B
  if Pow2_B < Pow2_A then
    (lshrInPlace A (subUnsigned Pow2_A Pow2_B)).map fun A => (⟨A, B⟩, Pow2_B)
  else if Pow2_A < Pow2_B then
    (lshrInPlace B (subUnsigned Pow2_B Pow2_A)).map fun B => (⟨A, B⟩, Pow2_A)
  else some (⟨A, B⟩, Pow2_A)

def turn (Pow2 : Nat) (s : Operands w) : Option (Turn (Operands w) (BitVec w)) :=
  if s.A ≠ s.B then
    if s.B.ult s.A then
      let A := s.A - s.B
      (lshrInPlace A (subUnsigned (countr_zero A) Pow2)).map fun A => .next ⟨A, s.B⟩
    else
      let B := s.B - s.A
      (lshrInPlace B (subUnsigned (countr_zero B) Pow2)).map fun B => .next ⟨s.A, B⟩
  else some (.exit s.A)

end GreatestCommonDivisor

open GreatestCommonDivisor

def GreatestCommonDivisor (turns : Nat) (A B : BitVec w) : Option (BitVec w) :=
  if A = B then some A
  else if A = 0 then some B
  else if B = 0 then some A
  else
    match strip A B with
    | none => none
    | some (s, Pow2) => loop (turn Pow2) turns s

theorem subUnsigned_of_le {a b : Nat} (ha : a < 2 ^ 32) (h : b ≤ a) : subUnsigned a b = a - b := by
  unfold subUnsigned
  omega

variable {A B V : BitVec w} {Pow2 g : Nat}

theorem oddMultiple_countr_zero (h : V ≠ 0) : OddMultiple (countr_zero V) V.toNat := by
  obtain ⟨hbit, hlow⟩ := countr_zero_spec h
  obtain ⟨u, hu⟩ := (LowBits.dvd_iff_bits (x := V) (k := countr_zero V)).mpr hlow
  refine ⟨u, ?_, hu⟩
  rw [← BitVec.testBit_toNat, hu, Nat.testBit_two_pow_mul] at hbit
  simpa using hbit

theorem oddMultiple_shift (hV : V ≠ 0) (hle : Pow2 ≤ countr_zero V) :
    OddMultiple Pow2 (V >>> (countr_zero V - Pow2)).toNat := by
  rw [toNat_shr]
  exact (oddMultiple_countr_zero hV).div hle

theorem lshrInPlace_countr (hw : w < 2 ^ 32) (hV : V ≠ 0) (hle : Pow2 ≤ countr_zero V) :
    lshrInPlace V (subUnsigned (countr_zero V) Pow2) = some (V >>> (countr_zero V - Pow2)) := by
  have hlt := countr_zero_lt hV
  rw [subUnsigned_of_le (by omega) hle, lshrInPlace, if_pos (by omega)]

theorem gcd_shift (hV : V ≠ 0) {b : Nat} (hle : Pow2 ≤ countr_zero V) (hb : OddMultiple Pow2 b) :
    Nat.gcd (V >>> (countr_zero V - Pow2)).toNat b = Nat.gcd V.toNat b := by
  rw [toNat_shr]
  exact (oddMultiple_countr_zero hV).gcd_div hb hle

/-! ## The loop -/

namespace GreatestCommonDivisor

/-- Both operands are odd multiples of `2 ^ Pow2`, and their gcd is `g`. -/
structure Inv (Pow2 g : Nat) (s : Operands w) : Prop where
  oddA : OddMultiple Pow2 s.A.toNat
  oddB : OddMultiple Pow2 s.B.toNat
  gcd : Nat.gcd s.A.toNat s.B.toNat = g

theorem Inv.swap (h : Inv Pow2 g ⟨A, B⟩) : Inv Pow2 g ⟨B, A⟩ :=
  ⟨h.oddB, h.oddA, by rw [Nat.gcd_comm]; exact h.gcd⟩

theorem Inv.reduce (hw : w < 2 ^ 32) (h : Inv Pow2 g ⟨A, B⟩) (hlt : B.toNat < A.toNat) :
    ∃ D, lshrInPlace (A - B) (subUnsigned (countr_zero (A - B)) Pow2) = some D ∧
      Inv Pow2 g ⟨D, B⟩ ∧ D.toNat < A.toNat := by
  have hsub : (A - B).toNat = A.toNat - B.toNat := toNat_sub_of_le (Nat.le_of_lt hlt)
  have hB : 0 < B.toNat := h.oddB.pos
  have hne : A - B ≠ 0 := by
    intro hzero
    have hnat : (A - B).toNat = 0 := by
      rw [hzero]
      rfl
    omega
  have hle : Pow2 ≤ countr_zero (A - B) := by
    obtain ⟨d, hd⟩ := h.oddA.exists_sub h.oddB
    have hdvd : 2 ^ (Pow2 + 1) ∣ (A - B).toNat := ⟨d, by rw [hsub, hd]⟩
    have hsucc := (oddMultiple_countr_zero hne).le_of_dvd hdvd
    omega
  refine ⟨_, lshrInPlace_countr hw hne hle, ⟨oddMultiple_shift hne hle, h.oddB, ?_⟩, ?_⟩
  · rw [gcd_shift hne hle h.oddB, hsub]
    exact (Nat.gcd_sub_self_left (Nat.le_of_lt hlt)).trans h.gcd
  · calc
      ((A - B) >>> (countr_zero (A - B) - Pow2)).toNat ≤ (A - B).toNat := by
        rw [toNat_shr]
        exact Nat.div_le_self _ _
      _ < A.toNat := by omega

theorem turn_step (hw : w < 2 ^ 32) {s : Operands w} (h : Inv Pow2 g s) :
    ∃ t, turn Pow2 s = some t ∧
      t.Sat (fun s' => Inv Pow2 g s' ∧ s'.A.toNat + s'.B.toNat < s.A.toNat + s.B.toNat)
        fun G => G.toNat = g := by
  obtain ⟨A, B⟩ := s
  unfold turn
  by_cases heq : A = B
  · refine ⟨.exit A, by rw [if_neg (not_not_intro heq)], ?_⟩
    have hgcd := h.gcd
    rw [← heq, Nat.gcd_self] at hgcd
    exact hgcd
  · rw [if_pos heq]
    have hne : A.toNat ≠ B.toNat := fun hnat => heq (BitVec.eq_of_toNat_eq hnat)
    by_cases hlt : B.toNat < A.toNat
    · obtain ⟨D, hD, hinv, hsmall⟩ := h.reduce hw hlt
      refine ⟨.next ⟨D, B⟩, ?_, hinv, ?_⟩
      · simp only [BitVec.ult, decide_eq_true hlt, if_true, hD, Option.map_some]
      · exact Nat.add_lt_add_right hsmall _
    · obtain ⟨D, hD, hinv, hsmall⟩ := h.swap.reduce hw (by omega)
      refine ⟨.next ⟨A, D⟩, ?_, hinv.swap, ?_⟩
      · simp only [BitVec.ult, decide_eq_false hlt, Bool.false_eq_true, if_false, hD,
          Option.map_some]
      · exact Nat.add_lt_add_left hsmall _

theorem loop_spec (hw : w < 2 ^ 32) {s : Operands w} (h : Inv Pow2 g s) :
    ∃ G : BitVec w, G.toNat = g ∧
      ∀ turns, s.A.toNat + s.B.toNat < turns → loop (turn Pow2) turns s = some G := by
  obtain ⟨G, hrun, hG⟩ := loop_total (turn Pow2) (fun s => s.A.toNat + s.B.toNat)
    (fun _ hs => turn_step hw hs) h
  exact ⟨G, hG, hrun⟩

theorem strip_spec (hw : w < 2 ^ 32) (hA : A ≠ 0) (hB : B ≠ 0) :
    ∃ s Pow2, strip A B = some (s, Pow2) ∧ Inv Pow2 (Nat.gcd A.toNat B.toNat) s ∧
      s.A.toNat + s.B.toNat ≤ A.toNat + B.toNat := by
  have hshrink : ∀ (V : BitVec w) (n : Nat), (V >>> n).toNat ≤ V.toNat := fun V n => by
    rw [toNat_shr]
    exact Nat.div_le_self _ _
  have hoddA := oddMultiple_countr_zero hA
  have hoddB := oddMultiple_countr_zero hB
  unfold strip
  rcases Nat.lt_trichotomy (countr_zero A) (countr_zero B) with hlt | heq | hlt
  · have hle := Nat.le_of_lt hlt
    refine ⟨⟨A, B >>> (countr_zero B - countr_zero A)⟩, countr_zero A, ?_,
      ⟨hoddA, oddMultiple_shift hB hle, ?_⟩, Nat.add_le_add_left (hshrink B _) _⟩
    · simp only [if_neg (Nat.not_lt.mpr hle), if_pos hlt, lshrInPlace_countr hw hB hle,
        Option.map_some]
    · rw [Nat.gcd_comm, gcd_shift hB hle hoddA, Nat.gcd_comm]
  · refine ⟨⟨A, B⟩, countr_zero A, ?_, ⟨hoddA, heq ▸ hoddB, rfl⟩, Nat.le_refl _⟩
    simp only [heq, if_neg (Nat.lt_irrefl _)]
  · have hle := Nat.le_of_lt hlt
    refine ⟨⟨A >>> (countr_zero A - countr_zero B), B⟩, countr_zero B, ?_,
      ⟨oddMultiple_shift hA hle, hoddB, gcd_shift hA hle hoddB⟩,
      Nat.add_le_add_right (hshrink A _) _⟩
    simp only [if_pos hlt, lshrInPlace_countr hw hA hle, Option.map_some]

end GreatestCommonDivisor

/-- The loop ends, no assertion fails, and the result is the greatest common divisor. -/
theorem greatestCommonDivisor_spec (hw : w < 2 ^ 32) (A B : BitVec w) :
    ∃ G : BitVec w, G.toNat = Nat.gcd A.toNat B.toNat ∧
      ∀ turns, A.toNat + B.toNat < turns → GreatestCommonDivisor turns A B = some G := by
  unfold GreatestCommonDivisor
  by_cases heq : A = B
  · refine ⟨A, by rw [← heq, Nat.gcd_self], fun turns _ => if_pos heq⟩
  by_cases hA : A = 0
  · refine ⟨B, ?_, fun turns _ => by rw [if_neg heq, if_pos hA]⟩
    rw [hA, show (0 : BitVec w).toNat = 0 from rfl, Nat.gcd_zero_left]
  by_cases hB : B = 0
  · refine ⟨A, ?_, fun turns _ => by rw [if_neg heq, if_neg hA, if_pos hB]⟩
    rw [hB, show (0 : BitVec w).toNat = 0 from rfl, Nat.gcd_zero_right]
  obtain ⟨s, Pow2, hstrip, hinv, hle⟩ := strip_spec hw hA hB
  obtain ⟨G, hG, hrun⟩ := loop_spec hw hinv
  refine ⟨G, hG, ?_⟩
  intro turns hturns
  simp only [if_neg heq, if_neg hA, if_neg hB, hstrip]
  exact hrun turns (by omega)

theorem greatestCommonDivisor_bytes :
    8 < 2 ^ 32 ∧ ∃ G : BitVec 8, G.toNat = Nat.gcd (24 : BitVec 8).toNat (36 : BitVec 8).toNat ∧
      ∀ turns, (24 : BitVec 8).toNat + (36 : BitVec 8).toNat < turns →
        GreatestCommonDivisor turns (24 : BitVec 8) 36 = some G :=
  ⟨by decide, greatestCommonDivisor_spec (by decide) 24 36⟩

example : GreatestCommonDivisor 10 (24 : BitVec 8) 36 = some 12 := by decide

end SmlnjLlvm.APIntOps
