import SmlnjLlvm.IR.ICmpRegions
import SmlnjLlvm.Library.BitOrder

/-!
# Shifts of ranges

A shift to the right is monotone in both operands, up to the sign. A shift to the
left is monotone only where the shifted out bits are the same for all operands:
leading bits that the ends share, leading ones, or leading zeros.
-/

namespace SmlnjLlvm.ConstantRange

open Words APIntOps Support

variable {w : Nat} {R X Y : ConstantRange w} {v x y : BitVec w}

def isAllNegative (R : ConstantRange w) : Bool :=
  if R.isEmptySet then true
  else if R.isFullSet then false
  else !R.isUpperSignWrapped && !isStrictlyPositive R.Upper

def shl (R Other : ConstantRange w) : ConstantRange w :=
  if R.isEmptySet || Other.isEmptySet then getEmpty
  else
    let Min := R.getUnsignedMin
    let Max := R.getUnsignedMax
    match Other.getSingleElement with
    | some RHS =>
      if w ≤ RHS.toNat then getEmpty
      else
        let EqualLeadingBits := countl_zero (Min ^^^ Max)
        if RHS.toNat ≤ EqualLeadingBits then
          getNonEmpty (APIntOps.shl Min RHS) (APIntOps.shl Max RHS + 1)
        else getNonEmpty 0 (getBitsSetFrom w RHS.toNat + 1)
    | none =>
      let OtherMax := Other.getUnsignedMax
      if R.isAllNegative && decide (OtherMax.toNat ≤ countl_one Min) then
        getNonEmpty (APIntOps.shl Min OtherMax) (APIntOps.shl Max Other.getUnsignedMin + 1)
      else if countl_zero Max < OtherMax.toNat then getFull
      else getNonEmpty (APIntOps.shl Min Other.getUnsignedMin) (APIntOps.shl Max OtherMax + 1)

def lshr (R Other : ConstantRange w) : ConstantRange w :=
  if R.isEmptySet || Other.isEmptySet then getEmpty
  else
    let max := APIntOps.lshr R.getUnsignedMax Other.getUnsignedMin + 1
    let min := APIntOps.lshr R.getUnsignedMin Other.getUnsignedMax
    getNonEmpty min max

def ashr (R Other : ConstantRange w) : ConstantRange w :=
  if R.isEmptySet || Other.isEmptySet then getEmpty
  else
    let PosMax := APIntOps.ashr R.getSignedMax Other.getUnsignedMin + 1
    let PosMin := APIntOps.ashr R.getSignedMin Other.getUnsignedMax
    let NegMax := APIntOps.ashr R.getSignedMax Other.getUnsignedMax + 1
    let NegMin := APIntOps.ashr R.getSignedMin Other.getUnsignedMin
    if !R.getSignedMin.msb then getNonEmpty PosMin PosMax
    else if R.getSignedMax.msb then getNonEmpty NegMin NegMax
    else getNonEmpty NegMin PosMax

theorem not_empty_of_mem (hw : 0 < w) (hx : x ∈ X) (hy : y ∈ Y) :
    (X.isEmptySet || Y.isEmptySet) = false := by
  rw [isEmptySet_eq_false hw hx, isEmptySet_eq_false hw hy]
  rfl

theorem lshr_mem (hw : 0 < w) (hx : x ∈ X) (hy : y ∈ Y) : APIntOps.lshr x y ∈ X.lshr Y := by
  have hxb := between_ends hx
  have hyb := between_ends hy
  have hpow : ∀ s t : BitVec w, s.toNat ≤ t.toNat → 2 ^ min s.toNat w ≤ 2 ^ min t.toNat w :=
    fun s t h => Nat.pow_le_pow_right (by decide) (by omega)
  rw [lshr, if_neg (Bool.eq_false_iff.mp (not_empty_of_mem hw hx hy))]
  refine mem_getNonEmpty ?_ ?_
  · rw [toNat_lshr, toNat_lshr]
    exact Nat.div_le_div hxb.1 (hpow _ _ hyb.2) (Nat.ne_of_gt (Nat.two_pow_pos _))
  · rw [toNat_lshr, toNat_lshr]
    exact Nat.div_le_div hxb.2 (hpow _ _ hyb.1) (Nat.ne_of_gt (Nat.two_pow_pos _))

theorem ediv_two_pow_le {n : Int} {s t : Nat} (h : s ≤ t) :
    (0 ≤ n → n / 2 ^ t ≤ n / 2 ^ s) ∧ (n < 0 → n / 2 ^ s ≤ n / 2 ^ t) := by
  have hs := int_two_pow_pos s
  have hd : (1 : Int) ≤ 2 ^ (t - s) := Int.pow_pos (by decide)
  have hpow : (2 : Int) ^ t = 2 ^ s * 2 ^ (t - s) := by
    rw [← Int.pow_add, Nat.add_sub_cancel' h]
  rw [hpow, ← Int.ediv_ediv_of_nonneg (Int.le_of_lt hs)]
  constructor
  · intro hn
    exact Int.ediv_le_self _ (Int.ediv_nonneg hn (Int.le_of_lt hs))
  · intro hn
    have hneg : n / 2 ^ s < 0 := Int.ediv_neg_of_neg_of_pos hn hs
    rw [Int.le_ediv_iff_mul_le (by omega)]
    have hle := Int.mul_le_mul_of_nonpos_left (Int.le_of_lt hneg) hd
    omega

theorem ashr_mem (hw : 0 < w) (hx : x ∈ X) (hy : y ∈ Y) : APIntOps.ashr x y ∈ X.ashr Y := by
  have hxb := sbetween_ends hx
  have hyb := between_ends hy
  have hpos : (0 : Int) < 2 ^ min y.toNat w := Int.pow_pos (by decide)
  have hlo := Int.ediv_le_ediv hpos hxb.1
  have hhi := Int.ediv_le_ediv hpos hxb.2
  have hlong : min y.toNat w ≤ min Y.getUnsignedMax.toNat w := by
    have hle := hyb.2
    omega
  have hshort : min Y.getUnsignedMin.toNat w ≤ min y.toNat w := by
    have hle := hyb.1
    omega
  rw [ashr, if_neg (Bool.eq_false_iff.mp (not_empty_of_mem hw hx hy))]
  simp only [BitVec.msb_eq_toInt]
  split_ifs with hmin hmax
  · have hnonneg : 0 ≤ X.getSignedMin.toInt := by simpa using hmin
    have hnonneg' : 0 ≤ X.getSignedMax.toInt := Int.le_trans hnonneg (Int.le_trans hxb.1 hxb.2)
    refine mem_getNonEmpty_signed ?_ ?_
    · rw [toInt_ashr, toInt_ashr]
      exact Int.le_trans ((ediv_two_pow_le hlong).1 hnonneg) hlo
    · rw [toInt_ashr, toInt_ashr]
      exact Int.le_trans hhi ((ediv_two_pow_le hshort).1 hnonneg')
  · have hneg : X.getSignedMax.toInt < 0 := by simpa using hmax
    have hneg' : X.getSignedMin.toInt < 0 :=
      Int.lt_of_le_of_lt (Int.le_trans hxb.1 hxb.2) hneg
    refine mem_getNonEmpty_signed ?_ ?_
    · rw [toInt_ashr, toInt_ashr]
      exact Int.le_trans ((ediv_two_pow_le hshort).2 hneg') hlo
    · rw [toInt_ashr, toInt_ashr]
      exact Int.le_trans hhi ((ediv_two_pow_le hlong).2 hneg)
  · have hneg : X.getSignedMin.toInt < 0 := by simpa using hmin
    have hnonneg : 0 ≤ X.getSignedMax.toInt := by simpa using hmax
    refine mem_getNonEmpty_signed ?_ ?_
    · rw [toInt_ashr, toInt_ashr]
      exact Int.le_trans ((ediv_two_pow_le hshort).2 hneg) hlo
    · rw [toInt_ashr, toInt_ashr]
      exact Int.le_trans hhi ((ediv_two_pow_le hshort).1 hnonneg)

/-! ## Shifts to the left -/

theorem two_pow_split {s : Nat} (hs : s ≤ w) : 2 ^ w = 2 ^ (w - s) * 2 ^ s := by
  rw [← Nat.pow_add, Nat.sub_add_cancel hs]

theorem toNat_shl_of_div_eq {s c : Nat} (hs : s ≤ w) (hdiv : x.toNat / 2 ^ (w - s) = c) :
    (x <<< s).toNat + c * 2 ^ w = x.toNat * 2 ^ s := by
  have hquo : x.toNat * 2 ^ s / 2 ^ w = c := by
    rw [two_pow_split hs, Nat.mul_div_mul_right _ _ (Nat.two_pow_pos s), hdiv]
  rw [toNat_shl, ← hquo, Nat.mul_comm _ (2 ^ w), Nat.mod_add_div]

theorem toNat_shl_of_ones {s : Nat} (hs : s ≤ w) (hones : 2 ^ w ≤ x.toNat + 2 ^ (w - s)) :
    (x <<< s).toNat + (2 ^ w - x.toNat) * 2 ^ s = 2 ^ w := by
  have hpow := Nat.two_pow_pos s
  obtain ⟨z, hz⟩ : ∃ z, z + x.toNat = 2 ^ w := ⟨2 ^ w - x.toNat, by omega⟩
  have hle : z * 2 ^ s ≤ 2 ^ w := by
    rw [two_pow_split hs]
    exact Nat.mul_le_mul_right _ (by omega)
  have hpos : 0 < z * 2 ^ s := Nat.mul_pos (by omega) hpow
  have hsum : x.toNat * 2 ^ s = 2 ^ w - z * 2 ^ s + 2 ^ w * (2 ^ s - 1) := by
    have htotal : z * 2 ^ s + x.toNat * 2 ^ s = 2 ^ w * 2 ^ s := by rw [← Nat.add_mul, hz]
    have hfactor : 2 ^ w * 2 ^ s = 2 ^ w * (2 ^ s - 1) + 2 ^ w := by
      rw [← Nat.mul_succ, Nat.succ_eq_add_one, Nat.sub_add_cancel hpow]
    omega
  have hdiff : 2 ^ w - x.toNat = z := by omega
  rw [toNat_shl, hsum, Nat.add_mul_mod_self_left,
    Nat.mod_eq_of_lt (by omega), hdiff]
  omega

theorem shl_eq {s : BitVec w} (hs : s.toNat ≤ w) : APIntOps.shl x s = x <<< s.toNat := by
  rw [APIntOps.shl, getLimitedValue_eq, Nat.min_eq_left hs]

theorem shl_mem_of_equal_bits {lo hi s : BitVec w} (hs : s.toNat ≤ countl_zero (lo ^^^ hi))
    (hx : Between lo hi x) :
    APIntOps.shl x s ∈ getNonEmpty (APIntOps.shl lo s) (APIntOps.shl hi s + 1) := by
  have hw : s.toNat ≤ w := Nat.le_trans hs (countl_zero_le _)
  have hle : lo.toNat ≤ hi.toNat := Nat.le_trans hx.1 hx.2
  have hlo := toNat_shl_of_div_eq hw (div_eq_of_between hs (Nat.le_refl _) hle)
  have hmid := toNat_shl_of_div_eq hw (div_eq_of_between hs hx.1 hx.2)
  have hhi := toNat_shl_of_div_eq hw (div_eq_of_between hs hle (Nat.le_refl _))
  have hmul := Nat.mul_le_mul_right (2 ^ s.toNat) hx.1
  have hmul' := Nat.mul_le_mul_right (2 ^ s.toNat) hx.2
  rw [shl_eq hw, shl_eq hw, shl_eq hw]
  exact mem_getNonEmpty (by omega) (by omega)

theorem shl_mem_of_single {s : BitVec w} (hs : s.toNat ≤ w) (x : BitVec w) :
    APIntOps.shl x s ∈ getNonEmpty 0 (getBitsSetFrom w s.toNat + 1) := by
  rw [mem_upTo, shl_eq hs]
  apply BitOrder.Below.toNat_le
  intro i hi
  have hlt := BitVec.lt_of_getLsbD hi
  rw [BitVec.getLsbD_shiftLeft, Bool.and_eq_true, Bool.and_eq_true] at hi
  rw [getBitsSetFrom, BitVec.getLsbD_shiftLeft, BitVec.getLsbD_allOnes, hi.1.1, hi.1.2,
    decide_eq_true (by omega : i - s.toNat < w)]
  rfl

theorem shl_mem_of_ones {lo hi s t : BitVec w} (ht : t.toNat ≤ countl_one lo)
    (hx : Between lo hi x) (hy : Between s t y) :
    APIntOps.shl x y ∈ getNonEmpty (APIntOps.shl lo t) (APIntOps.shl hi s + 1) := by
  have htw : t.toNat ≤ w := Nat.le_trans ht (countl_zero_le _)
  have hyw : y.toNat ≤ w := Nat.le_trans hy.2 htw
  have hsw : s.toNat ≤ w := Nat.le_trans hy.1 hyw
  have hlo_ones := (le_countl_one_iff htw).mp ht
  have hones : ∀ {z : BitVec w} {u : Nat}, lo.toNat ≤ z.toNat → u ≤ t.toNat →
      2 ^ w ≤ z.toNat + 2 ^ (w - u) := by
    intro z u hz hu
    have hpow : 2 ^ (w - t.toNat) ≤ 2 ^ (w - u) := Nat.pow_le_pow_right (by decide) (by omega)
    omega
  have hlo := toNat_shl_of_ones htw hlo_ones
  have hmid := toNat_shl_of_ones hyw (hones hx.1 hy.2)
  have hhi := toNat_shl_of_ones hsw (hones (Nat.le_trans hx.1 hx.2) (Nat.le_trans hy.1 hy.2))
  have hpow : 2 ^ y.toNat ≤ 2 ^ t.toNat := Nat.pow_le_pow_right (by decide) hy.2
  have hpow' : 2 ^ s.toNat ≤ 2 ^ y.toNat := Nat.pow_le_pow_right (by decide) hy.1
  have hmul := Nat.mul_le_mul (Nat.sub_le_sub_left hx.1 (2 ^ w)) hpow
  have hmul' := Nat.mul_le_mul (Nat.sub_le_sub_left hx.2 (2 ^ w)) hpow'
  rw [shl_eq htw, shl_eq hyw, shl_eq hsw]
  exact mem_getNonEmpty (by omega) (by omega)

theorem shl_mem_of_zeros {lo hi s t : BitVec w} (ht : t.toNat ≤ countl_zero hi)
    (hx : Between lo hi x) (hy : Between s t y) :
    APIntOps.shl x y ∈ getNonEmpty (APIntOps.shl lo s) (APIntOps.shl hi t + 1) := by
  have htw : t.toNat ≤ w := Nat.le_trans ht (countl_zero_le _)
  have hyw : y.toNat ≤ w := Nat.le_trans hy.2 htw
  have hsw : s.toNat ≤ w := Nat.le_trans hy.1 hyw
  have hhi_zeros := (le_countl_zero_iff htw).mp ht
  have hzeros : ∀ {z : BitVec w} {u : Nat}, z.toNat ≤ hi.toNat → u ≤ t.toNat →
      z.toNat / 2 ^ (w - u) = 0 := by
    intro z u hz hu
    have hpow : 2 ^ (w - t.toNat) ≤ 2 ^ (w - u) := Nat.pow_le_pow_right (by decide) (by omega)
    exact Nat.div_eq_of_lt (by omega)
  have hlo := toNat_shl_of_div_eq hsw
    (hzeros (Nat.le_trans hx.1 hx.2) (Nat.le_trans hy.1 hy.2))
  have hmid := toNat_shl_of_div_eq hyw (hzeros hx.2 hy.2)
  have hhi := toNat_shl_of_div_eq htw (hzeros (Nat.le_refl _) (Nat.le_refl _))
  have hpow : 2 ^ y.toNat ≤ 2 ^ t.toNat := Nat.pow_le_pow_right (by decide) hy.2
  have hpow' : 2 ^ s.toNat ≤ 2 ^ y.toNat := Nat.pow_le_pow_right (by decide) hy.1
  have hmul := Nat.mul_le_mul hx.1 hpow'
  have hmul' := Nat.mul_le_mul hx.2 hpow
  rw [shl_eq htw, shl_eq hyw, shl_eq hsw]
  exact mem_getNonEmpty (by omega) (by omega)

theorem shl_mem (hx : x ∈ X) (hy : y ∈ Y) (hlt : y.toNat < w) :
    APIntOps.shl x y ∈ X.shl Y := by
  have hw : 0 < w := Nat.zero_lt_of_lt hlt
  have hxb := between_ends hx
  have hyb := between_ends hy
  rw [shl, if_neg (Bool.eq_false_iff.mp (not_empty_of_mem hw hx hy))]
  cases hsingle : Y.getSingleElement with
  | some RHS =>
    obtain rfl : y = RHS := (mem_single_iff hw hsingle).mp hy
    dsimp only
    rw [if_neg (Nat.not_le.mpr hlt)]
    split_ifs with hbits
    · exact shl_mem_of_equal_bits hbits hxb
    · exact shl_mem_of_single (Nat.le_of_lt hlt) x
  | none =>
    dsimp only
    split_ifs with hneg hover
    · rw [Bool.and_eq_true, decide_eq_true_iff] at hneg
      exact shl_mem_of_ones hneg.2 hxb hyb
    · exact mem_getFull _
    · exact shl_mem_of_zeros (Nat.not_lt.mp hover) hxb hyb

end SmlnjLlvm.ConstantRange
