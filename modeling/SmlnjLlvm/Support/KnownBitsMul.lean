import SmlnjLlvm.Support.KnownBits
import SmlnjLlvm.Library.LowBits

/-!
# Known bits of products

The high zeros of a product follow from the product of the greatest members, if
that does not overflow. The low bits follow from the low bits of the operands that
are known, and trailing zeros make more of them known.
-/

namespace SmlnjLlvm.KnownBits

open Support APIntOps BitOrder LowBits

variable {w : Nat}

/-- `getLoBits`, the word with all other bits cleared. -/
def getLoBits (V : BitVec w) (numBits : Nat) : BitVec w := getLowBitsSet w numBits &&& V

/-- The zeros above the product of the greatest members. -/
def leadingZerosOfProduct (LHS RHS : KnownBits w) : Nat :=
  let (UMaxResult, HasOverflow) := umul_ov LHS.getMaxValue RHS.getMaxValue
  if HasOverflow then 0 else countl_zero UMaxResult

def trailBitsKnown (K : KnownBits w) : Nat := countr_one (K.Zero ||| K.One)

def resultBitsKnown (LHS RHS : KnownBits w) : Nat :=
  let SmallestOperand := min (LHS.trailBitsKnown - LHS.countMinTrailingZeros)
    (RHS.trailBitsKnown - RHS.countMinTrailingZeros)
  min (SmallestOperand + (LHS.countMinTrailingZeros + RHS.countMinTrailingZeros)) w

def bottomKnown (LHS RHS : KnownBits w) : BitVec w :=
  getLoBits LHS.One LHS.trailBitsKnown * getLoBits RHS.One RHS.trailBitsKnown

def mul (LHS RHS : KnownBits w) (NoUndefSelfMultiply : Bool) : Option (KnownBits w) :=
  if LHS.hasConflict || RHS.hasConflict then none
  else if NoUndefSelfMultiply && LHS != RHS then none
  else
    let Res : KnownBits w :=
      ⟨getHighBitsSet w (leadingZerosOfProduct LHS RHS) |||
          getLoBits (~~~bottomKnown LHS RHS) (resultBitsKnown LHS RHS),
        getLoBits (bottomKnown LHS RHS) (resultBitsKnown LHS RHS)⟩
    if NoUndefSelfMultiply && decide (1 < w) then
      if Res.One.getLsbD 1 then none else some { Res with Zero := Res.Zero ||| BitVec.twoPow w 1 }
    else some Res

def sext (K : KnownBits w) (BitWidth : Nat) : KnownBits BitWidth :=
  ⟨K.Zero.signExtend BitWidth, K.One.signExtend BitWidth⟩

def zext (K : KnownBits w) (BitWidth : Nat) : KnownBits BitWidth :=
  ⟨K.Zero.setWidth BitWidth ||| getBitsSetFrom BitWidth w, K.One.setWidth BitWidth⟩

def extractBits (K : KnownBits w) (NumBits BitPosition : Nat) : KnownBits NumBits :=
  ⟨K.Zero.extractLsb' BitPosition NumBits, K.One.extractLsb' BitPosition NumBits⟩

def mulhs (LHS RHS : KnownBits w) : Option (KnownBits w) :=
  if LHS.hasConflict || RHS.hasConflict then none
  else (mul (LHS.sext (2 * w)) (RHS.sext (2 * w)) false).map fun K => K.extractBits w w

def mulhu (LHS RHS : KnownBits w) : Option (KnownBits w) :=
  if LHS.hasConflict || RHS.hasConflict then none
  else (mul (LHS.zext (2 * w)) (RHS.zext (2 * w)) false).map fun K => K.extractBits w w

section LowBitsOfProduct

variable {LHS RHS : KnownBits w} {l r : BitVec w}

theorem getLsbD_getLoBits (V : BitVec w) (n i : Nat) :
    (getLoBits V n).getLsbD i = (decide (i < n) && V.getLsbD i) := by
  rw [getLoBits, BitVec.getLsbD_and, getLsbD_getLowBitsSet]
  by_cases hi : i < w
  · rw [decide_eq_true hi, Bool.true_and]
  · rw [BitVec.getLsbD_of_ge V i (Nat.not_lt.mp hi), Bool.and_false, Bool.and_false]

theorem trailBitsKnown_spec {K : KnownBits w} {i : Nat} (hi : i < K.trailBitsKnown) :
    (K.Zero.getLsbD i || K.One.getLsbD i) = true := by
  have hbits := (le_countr_one_iff (countr_zero_le _)).mp (Nat.le_refl K.trailBitsKnown) i hi
  rwa [BitVec.getLsbD_or] at hbits

theorem countMinTrailingZeros_spec {K : KnownBits w} {i : Nat} (hi : i < K.countMinTrailingZeros) :
    K.Zero.getLsbD i = true :=
  (le_countr_one_iff (countr_zero_le _)).mp (Nat.le_refl K.countMinTrailingZeros) i hi

theorem countMinTrailingZeros_le (K : KnownBits w) :
    K.countMinTrailingZeros ≤ K.trailBitsKnown := by
  refine (le_countr_one_iff (countr_zero_le _)).mpr fun i hi => ?_
  rw [BitVec.getLsbD_or, countMinTrailingZeros_spec hi, Bool.true_or]

theorem dvd_sub_getLoBits {K : KnownBits w} {v : BitVec w} (hv : v ∈ K) :
    (2 : Int) ^ K.trailBitsKnown ∣ (v.toNat : Int) - (getLoBits K.One K.trailBitsKnown).toNat := by
  apply sub_dvd_of_mod_eq
  rw [mod_eq_iff_bits]
  intro i hi
  rw [getLsbD_getLoBits, decide_eq_true hi, Bool.true_and,
    getLsbD_of_known hv (trailBitsKnown_spec hi)]

theorem dvd_of_mem {K : KnownBits w} {v : BitVec w} (hv : v ∈ K) :
    2 ^ K.countMinTrailingZeros ∣ v.toNat :=
  dvd_iff_bits.mpr fun i hi => (mem_iff.mp hv i).1 (countMinTrailingZeros_spec hi)

theorem dvd_getLoBits {K : KnownBits w} (h : K.hasConflict = false) :
    2 ^ K.countMinTrailingZeros ∣ (getLoBits K.One K.trailBitsKnown).toNat := by
  refine dvd_iff_bits.mpr fun i hi => ?_
  have hone : K.One.getLsbD i = false :=
    (mem_iff.mp (getMinValue_mem h) i).1 (countMinTrailingZeros_spec hi)
  rw [getLsbD_getLoBits, hone, Bool.and_false]

theorem bottomKnown_spec (hl : l ∈ LHS) (hr : r ∈ RHS) {i : Nat}
    (hi : i < resultBitsKnown LHS RHS) :
    (l * r).getLsbD i = (bottomKnown LHS RHS).getLsbD i := by
  have hbottom : (2 : Int) ^ LHS.countMinTrailingZeros ∣
      ((getLoBits LHS.One LHS.trailBitsKnown).toNat : Int) := by
    exact_mod_cast dvd_getLoBits (not_conflict_of_mem hl)
  have hzeros : (2 : Int) ^ RHS.countMinTrailingZeros ∣ (r.toNat : Int) := by
    exact_mod_cast dvd_of_mem hr
  have hdvd := mul_sub_mul_dvd (dvd_sub_getLoBits hl) (dvd_sub_getLoBits hr) hbottom hzeros
    (countMinTrailingZeros_le LHS) (countMinTrailingZeros_le RHS)
  have hmod : l.toNat * r.toNat % 2 ^ resultBitsKnown LHS RHS =
      (getLoBits LHS.One LHS.trailBitsKnown).toNat *
        (getLoBits RHS.One RHS.trailBitsKnown).toNat % 2 ^ resultBitsKnown LHS RHS := by
    have hlow := (pow_dvd_pow (2 : Int) (Nat.min_le_left _ w)).trans hdvd
    have hcong := (Int.modEq_iff_dvd.mpr hlow).symm
    have hnat : ((l.toNat * r.toNat : Nat) : Int) ≡
        (((getLoBits LHS.One LHS.trailBitsKnown).toNat *
          (getLoBits RHS.One RHS.trailBitsKnown).toNat : Nat) : Int)
        [ZMOD ((2 ^ resultBitsKnown LHS RHS : Nat) : Int)] := by
      exact hcong
    exact Int.natCast_modEq_iff.mp hnat
  refine mod_eq_iff_bits.mp ?_ i hi
  have hwidth : 2 ^ resultBitsKnown LHS RHS ∣ 2 ^ w := pow_dvd_pow 2 (Nat.min_le_right _ _)
  rw [bottomKnown, BitVec.toNat_mul, BitVec.toNat_mul, Nat.mod_mod_of_dvd _ hwidth,
    Nat.mod_mod_of_dvd _ hwidth, hmod]

theorem leadingZerosOfProduct_spec (hw : 0 < w) (hl : l ∈ LHS) (hr : r ∈ RHS) {i : Nat}
    (hi : w - leadingZerosOfProduct LHS RHS ≤ i) : (l * r).getLsbD i = false := by
  have hspec := umul_ov_spec hw LHS.getMaxValue RHS.getMaxValue
  simp only [leadingZerosOfProduct] at hi
  split_ifs at hi with hov
  · exact BitVec.getLsbD_of_ge _ _ hi
  · have hfits : LHS.getMaxValue.toNat * RHS.getMaxValue.toNat < 2 ^ w :=
      Nat.not_le.mp fun hge => hov (hspec.overflow.mpr hge)
    have hle : l.toNat * r.toNat ≤ LHS.getMaxValue.toNat * RHS.getMaxValue.toNat :=
      Nat.mul_le_mul (le_getMaxValue hl) (le_getMaxValue hr)
    have hclz := (le_countl_zero_iff (countl_zero_le _)).mp
      (Nat.le_refl (countl_zero (umul_ov LHS.getMaxValue RHS.getMaxValue).1))
    rw [hspec.value hfits] at hclz
    have hsmall : (l * r).toNat <
        2 ^ (w - countl_zero (umul_ov LHS.getMaxValue RHS.getMaxValue).1) := by
      rw [BitVec.toNat_mul, Nat.mod_eq_of_lt (Nat.lt_of_le_of_lt hle hfits)]
      exact Nat.lt_of_le_of_lt hle hclz
    rw [← BitVec.testBit_toNat]
    exact Nat.testBit_lt_two_pow
      (Nat.lt_of_lt_of_le hsmall (Nat.pow_le_pow_right (by decide) hi))

end LowBitsOfProduct

section Products

variable {LHS RHS : KnownBits w}

/-- The result for two operands that need not be the same. -/
def mulOf (LHS RHS : KnownBits w) : KnownBits w :=
  ⟨getHighBitsSet w (leadingZerosOfProduct LHS RHS) |||
      getLoBits (~~~bottomKnown LHS RHS) (resultBitsKnown LHS RHS),
    getLoBits (bottomKnown LHS RHS) (resultBitsKnown LHS RHS)⟩

theorem mem_mulOf (hw : 0 < w) {l r : BitVec w} (hl : l ∈ LHS) (hr : r ∈ RHS) :
    l * r ∈ mulOf LHS RHS := by
  rw [mem_iff]
  intro i
  simp only [mulOf, BitVec.getLsbD_or, getLsbD_getHighBitsSet, getLsbD_getLoBits, Bool.or_eq_true,
    Bool.and_eq_true, decide_eq_true_iff]
  constructor
  · rintro (⟨-, hhigh⟩ | ⟨hlow, hbit⟩)
    · exact leadingZerosOfProduct_spec hw hl hr hhigh
    · rw [bottomKnown_spec hl hr hlow]
      rw [BitVec.getLsbD_not, Bool.and_eq_true, Bool.not_eq_true'] at hbit
      exact hbit.2
  · rintro ⟨hlow, hbit⟩
    rw [bottomKnown_spec hl hr hlow, hbit]

theorem mul_eq (hL : LHS.hasConflict = false) (hR : RHS.hasConflict = false) :
    mul LHS RHS false = some (mulOf LHS RHS) := by
  rw [mul, hL, hR]
  rfl

theorem mul_self_spec (hw : 0 < w) (hL : LHS.hasConflict = false) :
    ∃ K, mul LHS LHS true = some K ∧ ∀ l ∈ LHS, l * l ∈ K := by
  have hbit : (mulOf LHS LHS).One.getLsbD 1 = false := by
    have hmin := getMinValue_mem hL
    refine Bool.eq_false_of_not_eq_true fun hone => ?_
    have hsquare := (mem_iff.mp (mem_mulOf hw hmin hmin) 1).2 hone
    rw [square_bit_one] at hsquare
    cases hsquare
  have heq : mul LHS LHS true = if 1 < w then
      some { mulOf LHS LHS with Zero := (mulOf LHS LHS).Zero ||| BitVec.twoPow w 1 }
        else some (mulOf LHS LHS) := by
    rw [mulOf] at hbit
    simp only [mul, hL, hbit, bne_self_eq_false, Bool.or_self, Bool.and_false, Bool.false_eq_true,
      if_false, Bool.true_and, decide_eq_true_iff]
    rfl
  rw [heq]
  split_ifs with h
  · refine ⟨_, rfl, fun l hl => ?_⟩
    have hmem := mem_iff.mp (mem_mulOf hw hl hl)
    rw [mem_iff]
    intro i
    refine ⟨fun hzero => ?_, (hmem i).2⟩
    rw [BitVec.getLsbD_or, Bool.or_eq_true, BitVec.getLsbD_twoPow, Bool.and_eq_true,
      decide_eq_true_iff, decide_eq_true_iff] at hzero
    rcases hzero with hzero | ⟨-, rfl⟩
    · exact (hmem i).1 hzero
    · exact square_bit_one l
  · exact ⟨_, rfl, fun l hl => mem_mulOf hw hl hl⟩

end Products

section Halves

variable {K : KnownBits w} {v : BitVec w}

theorem mem_sext (h : v ∈ K) (n : Nat) : v.signExtend n ∈ K.sext n := by
  rw [mem_iff] at h ⊢
  intro i
  simp only [sext, BitVec.getLsbD_signExtend, BitVec.msb_eq_getLsbD_last]
  by_cases hi : i < n
  · split_ifs
    · simpa [hi] using h i
    · simpa [hi] using h (w - 1)
  · simp [hi]

theorem mem_zext (h : v ∈ K) (n : Nat) : v.setWidth n ∈ K.zext n := by
  rw [mem_iff] at h ⊢
  intro i
  simp only [zext, getBitsSetFrom, BitVec.getLsbD_or, BitVec.getLsbD_setWidth,
    BitVec.getLsbD_shiftLeft, BitVec.getLsbD_allOnes, Bool.or_eq_true, Bool.and_eq_true,
    Bool.not_eq_true', decide_eq_false_iff_not]
  refine ⟨fun hzero => ?_, fun hone => ⟨hone.1, (h i).2 hone.2⟩⟩
  rcases hzero with hzero | hzero
  · rw [(h i).1 hzero.2, Bool.and_false]
  · rw [BitVec.getLsbD_of_ge v i (Nat.not_lt.mp hzero.1.2), Bool.and_false]

theorem mem_extractBits (h : v ∈ K) (n p : Nat) : v.extractLsb' p n ∈ K.extractBits n p := by
  rw [mem_iff] at h ⊢
  intro i
  simp only [extractBits, BitVec.getLsbD_extractLsb', Bool.and_eq_true]
  refine ⟨fun hzero => ?_, fun hone => ⟨hone.1, (h _).2 hone.2⟩⟩
  rw [(h _).1 hzero.2, Bool.and_false]

theorem high_half_ofInt (w : Nat) (P : Int) :
    (BitVec.ofInt (2 * w) P).extractLsb' w w = BitVec.ofInt w (P / 2 ^ w) := by
  have hpos := Words.int_two_pow_pos w
  have hne : (2 : Int) ^ w ≠ 0 := Int.ne_of_gt hpos
  have hsquare : (2 : Int) ^ (2 * w) = 2 ^ w * 2 ^ w := by rw [Nat.two_mul, pow_add]
  have hnonneg : 0 ≤ P % 2 ^ (2 * w) :=
    Int.emod_nonneg _ (by rw [hsquare]; exact Int.mul_ne_zero hne hne)
  have hdiv : P / 2 ^ w = P % 2 ^ (2 * w) / 2 ^ w + 2 ^ w * (P / 2 ^ (2 * w)) := by
    conv_lhs => rw [← Int.emod_add_mul_ediv P (2 ^ (2 * w))]
    rw [hsquare, Int.mul_assoc, Int.add_mul_ediv_left _ _ hne]
  apply BitVec.eq_of_toNat_eq
  rw [BitVec.extractLsb'_toNat, BitVec.toNat_ofInt, BitVec.toNat_ofInt, Nat.shiftRight_eq_div_pow,
    Nat.cast_pow, Nat.cast_pow, Nat.cast_ofNat, hdiv, Int.add_mul_emod_self_left]
  have hcast : ((P % 2 ^ (2 * w)).toNat : Int) = P % 2 ^ (2 * w) := Int.toNat_of_nonneg hnonneg
  have hres : 0 ≤ P % 2 ^ (2 * w) / 2 ^ w % 2 ^ w := Int.emod_nonneg _ hne
  apply Int.ofNat_inj.mp
  rw [Int.toNat_of_nonneg hres]
  push_cast
  rw [hcast]

theorem high_half_toNat (l r : BitVec w) :
    (l.setWidth (2 * w) * r.setWidth (2 * w)).extractLsb' w w =
      BitVec.ofNat w (l.toNat * r.toNat / 2 ^ w) := by
  have hsquare : 2 ^ (2 * w) = 2 ^ w * 2 ^ w := by rw [Nat.two_mul, Nat.pow_add]
  have hle : 2 ^ w ≤ 2 ^ (2 * w) := Nat.pow_le_pow_right (by decide) (by omega)
  have hlt : l.toNat * r.toNat < 2 ^ (2 * w) := by
    rw [hsquare]
    exact Nat.mul_lt_mul'' l.isLt r.isLt
  apply BitVec.eq_of_toNat_eq
  rw [BitVec.extractLsb'_toNat, BitVec.toNat_mul, BitVec.toNat_setWidth, BitVec.toNat_setWidth,
    Nat.mod_eq_of_lt (Nat.lt_of_lt_of_le l.isLt hle), Nat.mod_eq_of_lt (Nat.lt_of_lt_of_le r.isLt hle),
    Nat.mod_eq_of_lt hlt, Nat.shiftRight_eq_div_pow, BitVec.toNat_ofNat]

end Halves

section HighProducts

variable {LHS RHS : KnownBits w}

theorem mulhs_spec (hw : 0 < w) (hL : LHS.hasConflict = false) (hR : RHS.hasConflict = false) :
    ∃ K, mulhs LHS RHS = some K ∧
      ∀ l ∈ LHS, ∀ r ∈ RHS, BitVec.ofInt w (l.toInt * r.toInt / 2 ^ w) ∈ K := by
  have hwideL := not_conflict_of_mem (mem_sext (getMinValue_mem hL) (2 * w))
  have hwideR := not_conflict_of_mem (mem_sext (getMinValue_mem hR) (2 * w))
  refine ⟨(mulOf (LHS.sext (2 * w)) (RHS.sext (2 * w))).extractBits w w, ?_,
    fun l hl r hr => ?_⟩
  · rw [mulhs, hL, hR, mul_eq hwideL hwideR]
    rfl
  · have hmem := mem_mulOf (by omega) (mem_sext hl (2 * w)) (mem_sext hr (2 * w))
    rw [BitVec.signExtend, BitVec.signExtend, ← BitVec.ofInt_mul] at hmem
    rw [← high_half_ofInt]
    exact mem_extractBits hmem w w

theorem mulhu_spec (hw : 0 < w) (hL : LHS.hasConflict = false) (hR : RHS.hasConflict = false) :
    ∃ K, mulhu LHS RHS = some K ∧
      ∀ l ∈ LHS, ∀ r ∈ RHS, BitVec.ofNat w (l.toNat * r.toNat / 2 ^ w) ∈ K := by
  have hwideL := not_conflict_of_mem (mem_zext (getMinValue_mem hL) (2 * w))
  have hwideR := not_conflict_of_mem (mem_zext (getMinValue_mem hR) (2 * w))
  refine ⟨(mulOf (LHS.zext (2 * w)) (RHS.zext (2 * w))).extractBits w w, ?_,
    fun l hl r hr => ?_⟩
  · rw [mulhu, hL, hR, mul_eq hwideL hwideR]
    rfl
  · rw [← high_half_toNat]
    exact mem_extractBits (mem_mulOf (by omega) (mem_zext hl (2 * w)) (mem_zext hr (2 * w))) w w

end HighProducts

end SmlnjLlvm.KnownBits
