import SmlnjLlvm.Support.APIntOps

/-!
# Rounded division

`RoundingUDiv` and `RoundingSDiv` correct a quotient by the remainder that comes
with it. What they return is the exact quotient, a rational number, rounded to an
integer and taken modulo the range of the type.
-/

namespace SmlnjLlvm.APIntOps

open Quotients

variable {w : Nat}

def udivrem (LHS RHS : BitVec w) : Option (BitVec w × BitVec w) :=
  if RHS = 0 then none else some (LHS / RHS, LHS % RHS)

def sdivrem (LHS RHS : BitVec w) : Option (BitVec w × BitVec w) :=
  if LHS.msb then
    if RHS.msb then (udivrem (-LHS) (-RHS)).map fun r => (r.1, -r.2)
    else (udivrem (-LHS) RHS).map fun r => (-r.1, -r.2)
  else if RHS.msb then (udivrem LHS (-RHS)).map fun r => (-r.1, r.2)
  else udivrem LHS RHS

def Rounding.toInteger : Rounding → ℚ → Int
  | .DOWN, x => ⌊x⌋
  | .UP, x => ⌈x⌉
  | .TOWARD_ZERO, x => if 0 ≤ x then ⌊x⌋ else ⌈x⌉

theorem udivrem_eq (LHS : BitVec w) {RHS : BitVec w} (h : RHS ≠ 0) :
    udivrem LHS RHS = some (LHS / RHS, LHS % RHS) := if_neg h

theorem sdivrem_eq (LHS : BitVec w) {RHS : BitVec w} (h : RHS ≠ 0) :
    sdivrem LHS RHS = some (LHS.sdiv RHS, LHS.srem RHS) := by
  have hneg := neg_ne_zero h
  unfold sdivrem BitVec.sdiv BitVec.srem
  cases LHS.msb with
  | true =>
    cases RHS.msb with
    | true =>
      simp only [if_true, udivrem_eq _ hneg, Option.map_some]
      rfl
    | false =>
      simp only [if_true, Bool.false_eq_true, if_false, udivrem_eq _ h, Option.map_some]
      rfl
  | false =>
    cases RHS.msb with
    | true =>
      simp only [if_true, Bool.false_eq_true, if_false, udivrem_eq _ hneg, Option.map_some]
      rfl
    | false => exact udivrem_eq _ h

theorem RoundingUDiv_eq_udivrem (A : BitVec w) {B : BitVec w} (hB : B ≠ 0) :
    RoundingUDiv A B .UP = (udivrem A B).map fun r => if r.2 = 0 then r.1 else r.1 + 1 := by
  rw [udivrem_eq A hB, Option.map_some, RoundingUDiv, udiv_eq A hB, urem_eq A hB]
  dsimp only [Option.bind_eq_bind, Option.bind_some]
  split <;> rfl

theorem RoundingSDiv_eq_sdivrem (A : BitVec w) {B : BitVec w} (hB : B ≠ 0) {RM : Rounding}
    (hRM : RM ≠ .TOWARD_ZERO) : RoundingSDiv A B RM = (sdivrem A B).map fun r =>
      if r.2 = 0 then r.1
      else if RM = .DOWN then if r.2.msb != B.msb then r.1 - 1 else r.1
      else if r.2.msb != B.msb then r.1 else r.1 + 1 := by
  rw [sdivrem_eq A hB, Option.map_some]
  cases RM with
  | TOWARD_ZERO => exact absurd rfl hRM
  | DOWN =>
    rw [RoundingSDiv, sdiv_eq A hB, srem_eq A hB]
    dsimp only [Option.bind_eq_bind, Option.bind_some]
    split_ifs <;> first | rfl | contradiction
  | UP =>
    rw [RoundingSDiv, sdiv_eq A hB, srem_eq A hB]
    dsimp only [Option.bind_eq_bind, Option.bind_some]
    split_ifs <;> first | rfl | contradiction

/-! ## Rounding -/

theorem ofInt_sub_one (n : Int) : BitVec.ofInt w (n - 1) = BitVec.ofInt w n - 1 := by
  rw [Int.sub_eq_add_neg, BitVec.ofInt_add, BitVec.ofInt_neg, BitVec.sub_eq_add_neg]
  rfl

theorem sdiv_eq_ofInt (A B : BitVec w) : A.sdiv B = BitVec.ofInt w (A.toInt.tdiv B.toInt) := by
  apply BitVec.eq_of_toInt_eq
  rw [BitVec.toInt_sdiv, BitVec.toInt_ofInt]

section Divisor

variable {A B : BitVec w} (hB : B ≠ 0)
include hB

theorem srem_msb_ne_iff (hne : A.srem B ≠ 0) :
    ((A.srem B).msb != B.msb) = true ↔ ((A.toInt.tmod B.toInt : Int) / B.toInt : ℚ) < 0 := by
  have hBne := toInt_ne_zero_iff.mpr hB
  have hrem := toInt_ne_zero_iff.mpr hne
  rw [div_neg_iff_signs, ← BitVec.toInt_srem, BitVec.msb_eq_toInt, BitVec.msb_eq_toInt, bne_iff_ne,
    ne_eq, decide_eq_decide]
  omega

theorem RoundingUDiv_spec (RM : Rounding) :
    RoundingUDiv A B RM = some (BitVec.ofInt w (RM.toInteger (A.toNat / B.toNat))) := by
  have hpos : 0 < B.toNat :=
    Nat.pos_of_ne_zero fun hzero => hB (BitVec.eq_of_toNat_eq hzero)
  have hquot : BitVec.ofInt w (A.toNat / B.toNat : Nat) = A / B := by
    rw [BitVec.ofInt_natCast, ← BitVec.toNat_udiv, BitVec.ofNat_toNat, BitVec.setWidth_eq]
  have hfloor : ⌊(A.toNat / B.toNat : ℚ)⌋ = (A.toNat / B.toNat : Nat) :=
    Rat.floor_natCast_div_natCast _ _
  cases RM with
  | DOWN => rw [RoundingUDiv, udiv_eq A hB, Rounding.toInteger, hfloor, hquot]
  | TOWARD_ZERO =>
    have hnonneg : (0 : ℚ) ≤ A.toNat / B.toNat := by positivity
    rw [RoundingUDiv, udiv_eq A hB, Rounding.toInteger, if_pos hnonneg, hfloor, hquot]
  | UP =>
    rw [RoundingUDiv_eq_udivrem A hB, udivrem_eq A hB, Option.map_some, Rounding.toInteger,
      ceil_natCast_div_natCast A.toNat hpos, ← BitVec.toNat_umod]
    by_cases hzero : A % B = 0
    · have hnat : (A % B).toNat = 0 := congrArg BitVec.toNat hzero
      rw [if_pos hzero, if_pos hnat, hquot]
    · have hne : (A % B).toNat ≠ 0 := fun heq => hzero (BitVec.eq_of_toNat_eq heq)
      rw [if_neg hzero, if_neg hne, BitVec.ofInt_add, hquot]
      rfl

theorem RoundingSDiv_spec (RM : Rounding) :
    RoundingSDiv A B RM = some (BitVec.ofInt w (RM.toInteger (A.toInt / B.toInt))) := by
  have hBne := toInt_ne_zero_iff.mpr hB
  have hvalue : A.toInt = A.toInt.tdiv B.toInt * B.toInt + A.toInt.tmod B.toInt :=
    (Int.tdiv_mul_add_tmod _ _).symm
  have hbound := natAbs_tmod_lt A.toInt hBne
  have hfloor := floor_div_of_remainder hBne hvalue hbound
  have hceil := ceil_div_of_remainder hBne hvalue hbound
  have hzero : A.srem B = 0 → A.toInt.tmod B.toInt = 0 := by
    intro hzero
    rw [← BitVec.toInt_srem, hzero, BitVec.ofNat_eq_ofNat, BitVec.toInt_zero]
  have hquot := sdiv_eq_ofInt A B
  cases RM with
  | TOWARD_ZERO => rw [RoundingSDiv, sdiv_eq A hB, Rounding.toInteger, ← tdiv_eq_round hBne, hquot]
  | DOWN =>
    rw [RoundingSDiv_eq_sdivrem A hB (by decide), sdivrem_eq A hB, Option.map_some,
      Rounding.toInteger, hfloor]
    by_cases hrem : A.srem B = 0
    · rw [if_pos hrem, hzero hrem, Int.cast_zero, zero_div, if_neg (lt_irrefl _), hquot]
    · rw [if_neg hrem, if_pos rfl, hquot]
      have hsign := srem_msb_ne_iff hB hrem
      by_cases hneg : ((A.toInt.tmod B.toInt : Int) / B.toInt : ℚ) < 0
      · rw [if_pos (hsign.mpr hneg), if_pos hneg, ofInt_sub_one]
      · rw [if_neg (hsign.not.mpr hneg), if_neg hneg]
  | UP =>
    rw [RoundingSDiv_eq_sdivrem A hB (by decide), sdivrem_eq A hB, Option.map_some,
      Rounding.toInteger, hceil]
    by_cases hrem : A.srem B = 0
    · rw [if_pos hrem, hzero hrem, Int.cast_zero, zero_div, if_neg (lt_irrefl _), hquot]
    · rw [if_neg hrem, if_neg (by decide), hquot]
      have hsign := srem_msb_ne_iff hB hrem
      have hne : ((A.toInt.tmod B.toInt : Int) / B.toInt : ℚ) ≠ 0 := by
        refine div_ne_zero (Int.cast_ne_zero.mpr ?_) (Int.cast_ne_zero.mpr hBne)
        rw [← BitVec.toInt_srem]
        exact toInt_ne_zero_iff.mpr hrem
      by_cases hneg : ((A.toInt.tmod B.toInt : Int) / B.toInt : ℚ) < 0
      · rw [if_pos (hsign.mpr hneg), if_neg (not_lt.mpr hneg.le)]
      · rw [if_neg (hsign.not.mpr hneg), if_pos (lt_of_le_of_ne (not_lt.mp hneg) hne.symm),
          BitVec.ofInt_add]
        rfl

/-- Both divisions return the exact quotient, rounded as requested, in the range of the type; the
test of the signs tells that the exact quotient lies below the one of `sdivrem`. -/
theorem rounding_division (RM : Rounding) :
    RoundingUDiv A B RM = some (BitVec.ofInt w (RM.toInteger (A.toNat / B.toNat))) ∧
      RoundingSDiv A B RM = some (BitVec.ofInt w (RM.toInteger (A.toInt / B.toInt))) ∧
      ∀ Quo Rem, sdivrem A B = some (Quo, Rem) → Rem ≠ 0 →
        ((Rem.msb != B.msb) = true ↔ (A.toInt / B.toInt : ℚ) < Quo.toInt) := by
  refine ⟨RoundingUDiv_spec hB RM, RoundingSDiv_spec hB RM, ?_⟩
  intro Quo Rem hdivrem hne
  rw [sdivrem_eq A hB] at hdivrem
  obtain ⟨rfl, rfl⟩ := Prod.ext_iff.mp (Option.some.inj hdivrem)
  have hBne := toInt_ne_zero_iff.mpr hB
  have hquot : (A.sdiv B).toInt = A.toInt.tdiv B.toInt := by
    refine BitVec.toInt_sdiv_of_ne_or_ne A B (Or.inr ?_)
    rintro rfl
    refine hne (BitVec.srem_zero_of_dvd ?_)
    rw [BitVec.neg_one_eq_allOnes, BitVec.toInt_allOnes]
    split
    · exact Int.neg_dvd.mpr (one_dvd _)
    · next hw => rw [BitVec.toInt_of_zero_length (Nat.eq_zero_of_not_pos hw)]
  have hsplit := div_eq_add_div hBne (Int.tdiv_mul_add_tmod A.toInt B.toInt).symm
  rw [srem_msb_ne_iff hB hne, hquot, hsplit]
  exact add_lt_iff_neg_left.symm

end Divisor

/-- The quotient of minus seven and two, rounded up. -/
theorem rounding_division_byte :
    RoundingUDiv 249#8 2#8 .UP =
        some (BitVec.ofInt 8 (Rounding.UP.toInteger ((249#8).toNat / (2#8).toNat))) ∧
      RoundingSDiv 249#8 2#8 .UP =
        some (BitVec.ofInt 8 (Rounding.UP.toInteger ((249#8).toInt / (2#8).toInt))) ∧
      ∀ Quo Rem, sdivrem 249#8 2#8 = some (Quo, Rem) → Rem ≠ 0 →
        ((Rem.msb != (2#8).msb) = true ↔ ((249#8).toInt / (2#8).toInt : ℚ) < Quo.toInt) :=
  rounding_division (by decide) .UP

end SmlnjLlvm.APIntOps
