import SmlnjLlvm.IR.RangeBounds
import SmlnjLlvm.Support.APIntOps

/-!
# Casts of ranges

An extension of a range is the interval between its extreme elements, in the
unsigned or in the signed order. A truncation covers the residues of the
elements: those of an interval of numbers are an arc, and a range that wraps
contributes two of them.
-/

namespace SmlnjLlvm.ConstantRange

open Words APIntOps Support

variable {w d : Nat}

def zeroExtend (R : ConstantRange w) (DstTySize : Nat) : Option (ConstantRange DstTySize) :=
  if R.isEmptySet then some getEmpty
  else if DstTySize ≤ w then none
  else if R.isFullSet || R.isUpperWrapped then
    let LowerExt := if R.Upper = 0 then R.Lower.setWidth DstTySize else 0
    ofBounds LowerExt (BitVec.twoPow DstTySize w)
  else ofBounds (R.Lower.setWidth DstTySize) (R.Upper.setWidth DstTySize)

def signExtend (R : ConstantRange w) (DstTySize : Nat) : Option (ConstantRange DstTySize) :=
  if R.isEmptySet then some getEmpty
  else if DstTySize ≤ w then none
  else if R.Upper = BitVec.intMin w then
    ofBounds (R.Lower.signExtend DstTySize) (R.Upper.setWidth DstTySize)
  else if R.isFullSet || R.isSignWrappedSet then
    ofBounds (getHighBitsSet DstTySize (DstTySize - w + 1)) (getLowBitsSet DstTySize (w - 1) + 1)
  else ofBounds (R.Lower.signExtend DstTySize) (R.Upper.signExtend DstTySize)

/-- `truncate` from the test of the divided bounds on. -/
def truncateDiv (DstTySize : Nat) (LowerDiv UpperDiv : BitVec w) (Union : ConstantRange DstTySize) :
    Option (ConstantRange DstTySize) :=
  let UpperDivWidth := getActiveBits UpperDiv
  if UpperDivWidth ≤ DstTySize then do
    let R ← ofBounds (LowerDiv.setWidth DstTySize) (UpperDiv.setWidth DstTySize)
    R.unionWith Union .Smallest
  else if UpperDivWidth = DstTySize + 1 then
    let UpperDiv := UpperDiv &&& ~~~BitVec.twoPow w DstTySize
    if UpperDiv.ult LowerDiv then do
      let R ← ofBounds (LowerDiv.setWidth DstTySize) (UpperDiv.setWidth DstTySize)
      R.unionWith Union .Smallest
    else some getFull
  else some getFull

/-- `truncate` of the part from `LowerDiv` up to `UpperDiv`. -/
def truncatePart (DstTySize : Nat) (LowerDiv UpperDiv : BitVec w)
    (Union : ConstantRange DstTySize) : Option (ConstantRange DstTySize) :=
  if DstTySize < getActiveBits LowerDiv then
    let Adjust := LowerDiv &&& getBitsSetFrom w DstTySize
    truncateDiv DstTySize (LowerDiv - Adjust) (UpperDiv - Adjust) Union
  else truncateDiv DstTySize LowerDiv UpperDiv Union

def truncate (R : ConstantRange w) (DstTySize : Nat) : Option (ConstantRange DstTySize) :=
  if w ≤ DstTySize then none
  else if R.isEmptySet then some getEmpty
  else if R.isFullSet then some getFull
  else if R.isUpperWrapped then
    if DstTySize < getActiveBits R.Upper || countr_one R.Upper = DstTySize then some getFull
    else do
      let Union ← ofBounds (BitVec.allOnes DstTySize) (R.Upper.setWidth DstTySize)
      if R.Lower = BitVec.allOnes w then some Union
      else truncatePart DstTySize R.Lower (BitVec.allOnes w) Union
  else truncatePart DstTySize R.Lower R.Upper getEmpty

/-! ## Extensions -/

variable {R : ConstantRange w}

/-- The words between two elements of an image, in the order of a value. -/
def imageHull (image : Set (BitVec d)) (value : BitVec d → Int) : Set (BitVec d) :=
  {x | ∃ a ∈ image, ∃ b ∈ image, value a ≤ value x ∧ value x ≤ value b}

theorem imageHull_eq {image : Set (BitVec d)} {value : BitVec d → Int} {lo hi : Int} {a b : BitVec d}
    (ha : a ∈ image) (hb : b ∈ image) (halo : value a = lo) (hbhi : value b = hi)
    (hbounds : ∀ x ∈ image, lo ≤ value x ∧ value x ≤ hi) :
    imageHull image value = {x | lo ≤ value x ∧ value x ≤ hi} := by
  ext x
  constructor
  · rintro ⟨a', ha', b', hb', hle⟩
    exact ⟨(hbounds a' ha').1.trans hle.1, hle.2.trans (hbounds b' hb').2⟩
  · intro hx
    exact ⟨a, ha, b, hb, halo ▸ hx.1, hbhi ▸ hx.2⟩

theorem imageHull_empty (value : BitVec d → Int) : imageHull ∅ value = ∅ := by
  ext x
  refine iff_of_false ?_ (Set.notMem_empty x)
  rintro ⟨a, ha, -⟩
  exact ha

theorem elements_of_isEmptySet (hw : 0 < w) (h : R.isEmptySet = true) : R.elements = ∅ := by
  rw [isEmptySet_iff] at h
  rw [h, elements_getEmpty hw]

theorem toNat_zext (h : w ≤ d) (v : BitVec w) : (v.setWidth d).toNat = v.toNat :=
  BitVec.toNat_setWidth_of_le h

theorem toInt_sext (h : w ≤ d) (v : BitVec w) : (v.signExtend d).toInt = v.toInt :=
  BitVec.toInt_signExtend_of_le h

section Extensions

variable (h : w < d)

include h

theorem toNat_zext_add_one (v : BitVec w) : (v.setWidth d + 1).toNat = v.toNat + 1 := by
  have hpow : 2 * 2 ^ w ≤ 2 ^ d := by
    rw [← Nat.pow_succ']
    exact Nat.pow_le_pow_right (by decide) h
  rw [toNat_add_one (by omega), BitVec.toNat_setWidth_of_le (Nat.le_of_lt h),
    Nat.mod_eq_of_lt (by omega)]

theorem toInt_sext_add_one (hw : 0 < w) (v : BitVec w) :
    (v.signExtend d + 1).toInt = v.toInt + 1 := by
  have hd : 0 < d := by omega
  have hv := toInt_bounds hw v
  have hone : (1 : BitVec d).toInt = 1 := by
    rw [BitVec.ofNat_eq_ofNat, BitVec.toInt_one]
    omega
  have hbounds := toInt_bounds hd (v.signExtend d + 1)
  have hpow : (2 : Int) * 2 ^ (w - 1) ≤ 2 ^ (d - 1) := by
    rw [← Int.pow_succ']
    exact pow_le_pow_right₀ (by decide) (by omega)
  have hsum := toInt_add_cases hd (v.signExtend d) 1
  rw [toInt_sext h.le, hone] at hsum
  omega

theorem zext_top : (BitVec.allOnes w).setWidth d + 1 = BitVec.twoPow d w := by
  have hpos := Nat.two_pow_pos w
  apply BitVec.eq_of_toNat_eq
  rw [toNat_zext_add_one h, BitVec.toNat_allOnes, BitVec.toNat_twoPow_of_lt h]
  omega

theorem sext_bottom (hw : 0 < w) :
    getHighBitsSet d (d - w + 1) = (BitVec.intMin w).signExtend d := by
  apply BitVec.eq_of_getLsbD_eq
  intro i hi
  have hmsb : (BitVec.intMin w).msb = true := by
    rw [BitVec.msb_intMin, decide_eq_true hw]
  rw [getLsbD_getHighBitsSet, BitVec.getLsbD_signExtend, decide_eq_true hi, hmsb,
    BitVec.getLsbD_intMin, Bool.true_and, Bool.true_and]
  split
  · rw [decide_eq_decide]
    omega
  · exact decide_eq_true (by omega)

theorem sext_top (hw : 0 < w) : (BitVec.intMax w).signExtend d + 1 = BitVec.twoPow d (w - 1) := by
  have hpos := Nat.two_pow_pos (w - 1)
  have hmsb : (BitVec.intMax w).msb = false := by
    have hcases := msb_cases (BitVec.intMax w)
    rw [toNat_intMax] at hcases
    rcases hcases with hcases | hcases
    · exact hcases.1
    · omega
  apply BitVec.eq_of_toNat_eq
  rw [BitVec.signExtend_eq_setWidth_of_msb_false hmsb, toNat_zext_add_one h, toNat_intMax,
    BitVec.toNat_twoPow_of_lt (by omega)]
  omega

theorem zeroExtend_eq (hempty : R.isEmptySet = false) : R.zeroExtend d =
    ofBounds (R.getUnsignedMin.setWidth d) (R.getUnsignedMax.setWidth d + 1) := by
  have hw := width_pos_of_not_empty hempty
  rw [zeroExtend, hempty, if_neg Bool.false_ne_true, if_neg (Nat.not_le.mpr h)]
  by_cases hwrap : (R.isFullSet || R.isUpperWrapped) = true
  · rw [if_pos hwrap, getUnsignedMax, if_pos hwrap, zext_top h]
    unfold getUnsignedMin
    by_cases hzero : R.Upper = 0
    · have hfull : R.isFullSet = false := by
        rw [Bool.eq_false_iff, Ne, isFullSet_iff]
        rintro rfl
        exact allOnes_ne_zero hw hzero
      rw [if_pos hzero, if_neg (by simp [hfull, isWrappedSet, hzero])]
    · have hmin : (R.isFullSet || R.isWrappedSet) = true := by
        rw [isWrappedSet, decide_eq_true hzero, Bool.and_true]
        exact hwrap
      rw [if_neg hzero, if_pos hmin]
      simp
  · have hnot := hwrap
    rw [Bool.or_eq_true, not_or, Bool.not_eq_true, Bool.not_eq_true] at hnot
    rw [if_neg hwrap, getUnsignedMax, if_neg hwrap, getUnsignedMin, if_neg (by
      rw [hnot.1, isWrappedSet, ← isUpperWrapped, hnot.2]
      simp)]
    congr 1
    have hne : R.Lower ≠ R.Upper := by
      rcases full_or_ne hempty with hfull | hne
      · rw [isFullSet_iff.mpr hfull] at hnot
        cases hnot.1
      · exact hne
    have hsub := toNat_sub_one_cases hw R.Upper
    have hlt := toNat_ne hne
    have hle : ¬R.Upper.toNat < R.Lower.toNat := by
      have hult := hnot.2
      rwa [isUpperWrapped, BitVec.ult, decide_eq_false_iff_not] at hult
    apply BitVec.eq_of_toNat_eq
    rw [toNat_zext_add_one h, toNat_zext h.le]
    omega

theorem signExtend_eq (hempty : R.isEmptySet = false) : R.signExtend d =
    ofBounds (R.getSignedMin.signExtend d) (R.getSignedMax.signExtend d + 1) := by
  have hw := width_pos_of_not_empty hempty
  rw [signExtend, hempty, if_neg Bool.false_ne_true, if_neg (Nat.not_le.mpr h)]
  by_cases hmin : R.Upper = BitVec.intMin w
  · have hupper : R.Upper.setWidth d = BitVec.twoPow d (w - 1) := by
      apply BitVec.eq_of_toNat_eq
      rw [toNat_zext h.le, hmin, toNat_intMin hw, BitVec.toNat_twoPow_of_lt (by omega)]
    have hlower : R.getSignedMin = R.Lower := by
      unfold getSignedMin
      split
      · next hwrap =>
        simp only [isSignWrappedSet, hmin, ne_eq, not_true_eq_false, decide_false, Bool.and_false,
          Bool.or_false] at hwrap
        rw [isFullSet, Bool.and_eq_true, decide_eq_true_iff] at hwrap
        rw [hwrap.1, hmin]
      · rfl
    have hgreatest : R.getSignedMax = BitVec.intMax w := by
      refine if_pos ?_
      rcases full_or_ne hempty with hfull | hne
      · rw [isFullSet_iff.mpr hfull]
        rfl
      · have hgt : R.Lower.toInt ≠ R.Upper.toInt := fun heq => hne (BitVec.eq_of_toInt_eq heq)
        have hbounds := (toInt_bounds hw R.Lower).1
        rw [hmin, toInt_intMin hw] at hgt
        rw [Bool.or_eq_true, isUpperSignWrapped, BitVec.slt, decide_eq_true_iff, hmin,
          toInt_intMin hw]
        exact Or.inr (by omega)
    rw [if_pos hmin, hlower, hgreatest, sext_top h hw, hupper]
  · rw [if_neg hmin]
    by_cases hwrap : (R.isFullSet || R.isSignWrappedSet) = true
    · have hgreatest : (R.isFullSet || R.isUpperSignWrapped) = true := by
        rwa [isSignWrappedSet, decide_eq_true hmin, Bool.and_true] at hwrap
      have htop : getLowBitsSet d (w - 1) + 1 = BitVec.twoPow d (w - 1) := by
        have hpos := Nat.two_pow_pos (w - 1)
        apply BitVec.eq_of_toNat_eq
        rw [getLowBitsSet, toNat_zext_add_one (by omega), BitVec.toNat_allOnes,
          BitVec.toNat_twoPow_of_lt (by omega)]
        omega
      rw [if_pos hwrap, getSignedMin, if_pos hwrap, getSignedMax, if_pos hgreatest, sext_top h hw,
        sext_bottom h hw, htop]
    · have hnot := hwrap
      rw [Bool.or_eq_true, not_or, isSignWrappedSet, decide_eq_true hmin, Bool.and_true] at hnot
      have hgreatest : ¬(R.isFullSet || R.isUpperSignWrapped) = true := by
        rw [Bool.or_eq_true, not_or]
        exact hnot
      rw [if_neg hwrap, getSignedMin, if_neg hwrap, getSignedMax, if_neg hgreatest]
      congr 1
      apply BitVec.eq_of_toInt_eq
      have hne : R.Upper.toNat ≠ (BitVec.intMin w).toNat := fun heq =>
        hmin (BitVec.eq_of_toNat_eq heq)
      have hsub := toNat_sub_one_cases hw R.Upper
      have hupper := toInt_sign_cases R.Upper
      have hpred := toInt_sign_cases (R.Upper - 1)
      have hpow := two_pow_eq hw
      rw [toNat_intMin hw] at hne
      rw [toInt_sext_add_one h hw, toInt_sext h.le]
      omega

end Extensions

theorem zeroExtend_spec (hw : 0 < w) (h : w < d) (R : ConstantRange w) :
    ∃ Res, R.zeroExtend d = some Res ∧
      Res.elements = imageHull ((fun v => v.setWidth d) '' R.elements) (fun v => v.toNat) := by
  cases hempty : R.isEmptySet
  · have hle : (R.getUnsignedMin.setWidth d).toNat ≤ (R.getUnsignedMax.setWidth d).toNat := by
      rw [toNat_zext h.le, toNat_zext h.le]
      exact getUnsignedMin_le_getUnsignedMax hempty
    have hne : R.getUnsignedMin.setWidth d ≠ R.getUnsignedMax.setWidth d + 1 := by
      apply ne_of_toNat_ne
      rw [toNat_zext_add_one h, ← toNat_zext h.le R.getUnsignedMax]
      omega
    obtain ⟨Res, hRes, hmem⟩ := ofBounds_between hle hne
    refine ⟨Res, (zeroExtend_eq h hempty).trans hRes, ?_⟩
    have hmin : R.getUnsignedMin ∈ R.elements := getUnsignedMin_mem hempty
    have hmax : R.getUnsignedMax ∈ R.elements := getUnsignedMax_mem hempty
    rw [imageHull_eq (Set.mem_image_of_mem _ hmin) (Set.mem_image_of_mem _ hmax) rfl rfl]
    · ext x
      refine (hmem x).trans ?_
      exact and_congr Nat.cast_le.symm Nat.cast_le.symm
    · rintro x ⟨v, hv, rfl⟩
      simp only [toNat_zext h.le, Nat.cast_le]
      exact ⟨getUnsignedMin_le hv, le_getUnsignedMax hv⟩
  · rw [elements_of_isEmptySet hw hempty, Set.image_empty, imageHull_empty, zeroExtend, if_pos hempty]
    exact ⟨_, rfl, elements_getEmpty (by omega)⟩

theorem signExtend_spec (hw : 0 < w) (h : w < d) (R : ConstantRange w) :
    ∃ Res, R.signExtend d = some Res ∧
      Res.elements = imageHull ((fun v => v.signExtend d) '' R.elements) BitVec.toInt := by
  cases hempty : R.isEmptySet
  · have hle : (R.getSignedMin.signExtend d).toInt ≤ (R.getSignedMax.signExtend d).toInt := by
      rw [toInt_sext h.le, toInt_sext h.le]
      exact getSignedMin_le_getSignedMax hempty
    have hne : R.getSignedMin.signExtend d ≠ R.getSignedMax.signExtend d + 1 := by
      intro heq
      have hint := congrArg BitVec.toInt heq
      rw [toInt_sext_add_one h hw, ← toInt_sext h.le R.getSignedMax] at hint
      omega
    obtain ⟨Res, hRes, hmem⟩ := ofBounds_sbetween hle hne
    refine ⟨Res, (signExtend_eq h hempty).trans hRes, ?_⟩
    have hmin : R.getSignedMin ∈ R.elements := getSignedMin_mem hempty
    have hmax : R.getSignedMax ∈ R.elements := getSignedMax_mem hempty
    rw [imageHull_eq (Set.mem_image_of_mem _ hmin) (Set.mem_image_of_mem _ hmax) rfl rfl]
    · ext x
      exact hmem x
    · rintro x ⟨v, hv, rfl⟩
      simp only [toInt_sext h.le]
      exact ⟨getSignedMin_le hv, le_getSignedMax hv⟩
  · rw [elements_of_isEmptySet hw hempty, Set.image_empty, imageHull_empty, signExtend, if_pos hempty]
    exact ⟨_, rfl, elements_getEmpty (by omega)⟩

/-- The residues of an interval of numbers. -/
def residues (d a b : Nat) : Set (BitVec d) := {x | ∃ k, a ≤ k ∧ k < b ∧ k % 2 ^ d = x.toNat}

theorem residues_of_long {a b : Nat} (h : a + 2 ^ d ≤ b) : residues d a b = Set.univ := by
  refine Set.eq_univ_of_forall fun x => ?_
  have hx := x.isLt
  have hdiv := Nat.div_add_mod a (2 ^ d)
  by_cases hle : a % 2 ^ d ≤ x.toNat
  · refine ⟨2 ^ d * (a / 2 ^ d) + x.toNat, by omega, by omega, ?_⟩
    rw [Nat.mul_add_mod, Nat.mod_eq_of_lt hx]
  · refine ⟨2 ^ d * (a / 2 ^ d + 1) + x.toNat, ?_, ?_, ?_⟩
    · rw [Nat.mul_add]
      omega
    · rw [Nat.mul_add]
      omega
    · rw [Nat.mul_add_mod, Nat.mod_eq_of_lt hx]

theorem residues_add_mul (q : Nat) {a b : Nat} :
    residues d (2 ^ d * q + a) (2 ^ d * q + b) = residues d a b := by
  ext x
  constructor
  · rintro ⟨k, hak, hkb, heq⟩
    have hsub : 2 ^ d * q + (k - 2 ^ d * q) = k := by omega
    refine ⟨k - 2 ^ d * q, by omega, by omega, ?_⟩
    rwa [← hsub, Nat.mul_add_mod] at heq
  · rintro ⟨k, hak, hkb, heq⟩
    refine ⟨2 ^ d * q + k, by omega, by omega, ?_⟩
    rwa [Nat.mul_add_mod]

theorem mem_residues_iff {a b : Nat} (hlt : a < b) (hshort : b < a + 2 ^ d) (x : BitVec d) :
    x ∈ residues d a b ↔ Arc.Mem (a % 2 ^ d) (b % 2 ^ d) x.toNat := by
  have hx := x.isLt
  have hdiv := Nat.div_add_mod a (2 ^ d)
  have hdiv' := Nat.div_add_mod b (2 ^ d)
  have hperiod : b / 2 ^ d = a / 2 ^ d ∨ b / 2 ^ d = a / 2 ^ d + 1 := by
    have hle := Nat.div_le_div_right (c := 2 ^ d) (Nat.le_of_lt hlt)
    have hle' := Nat.div_le_div_right (c := 2 ^ d) (Nat.le_of_lt hshort)
    rw [Nat.add_div_right _ (Nat.two_pow_pos d)] at hle'
    omega
  have hmul : 2 ^ d * (a / 2 ^ d + 1) = 2 ^ d * (a / 2 ^ d) + 2 ^ d := by rw [Nat.mul_add, Nat.mul_one]
  constructor
  · rintro ⟨k, hak, hkb, hkx⟩
    have hk := Nat.div_add_mod k (2 ^ d)
    have hka := Nat.div_le_div_right (c := 2 ^ d) hak
    have hkb' := Nat.div_le_div_right (c := 2 ^ d) (Nat.le_of_lt hkb)
    have hkdiv : k / 2 ^ d = a / 2 ^ d ∨ k / 2 ^ d = a / 2 ^ d + 1 := by omega
    unfold Arc.Mem
    rcases hperiod with hperiod | hperiod <;> rcases hkdiv with hkdiv | hkdiv <;>
      rw [hperiod] at hdiv' <;> rw [hkdiv] at hk <;> omega
  · intro harc
    unfold Arc.Mem at harc
    by_cases hle : a % 2 ^ d ≤ x.toNat
    · refine ⟨2 ^ d * (a / 2 ^ d) + x.toNat, by omega, ?_, ?_⟩
      · rcases hperiod with hperiod | hperiod <;> rw [hperiod] at hdiv' <;> omega
      · rw [Nat.mul_add_mod, Nat.mod_eq_of_lt hx]
    · refine ⟨2 ^ d * (a / 2 ^ d + 1) + x.toNat, by omega, ?_, ?_⟩
      · rcases hperiod with hperiod | hperiod <;> rw [hperiod] at hdiv' <;> omega
      · rw [Nat.mul_add_mod, Nat.mod_eq_of_lt hx]

theorem representable_residues {a b : Nat} (hlt : a < b) :
    Representable (residues d a b) := by
  by_cases hlong : a + 2 ^ d ≤ b
  · exact ⟨getFull, elements_getFull.trans (residues_of_long hlong).symm⟩
  · have hne : BitVec.ofNat d a ≠ BitVec.ofNat d b := by
      intro heq
      have hmod := congrArg BitVec.toNat heq
      have hdvd := (Nat.modEq_iff_dvd' (Nat.le_of_lt hlt)).mp hmod
      have hle := Nat.le_of_dvd (by omega) hdvd
      omega
    refine ⟨⟨BitVec.ofNat d a, BitVec.ofNat d b, fun heq => absurd heq hne⟩, ?_⟩
    ext x
    rw [mem_residues_iff hlt (Nat.not_le.mp hlong), ← BitVec.toNat_ofNat, ← BitVec.toNat_ofNat]
    exact mem_iff hne

/-! ## Truncations -/

section Parts

variable {LowerDiv UpperDiv : BitVec w}

theorem part_hull (hlt : LowerDiv.toNat < UpperDiv.toNat)
    (hshort : UpperDiv.toNat < LowerDiv.toNat + 2 ^ d) {L U : BitVec d}
    (hL : L.toNat = LowerDiv.toNat % 2 ^ d) (hU : U.toNat = UpperDiv.toNat % 2 ^ d)
    (Union : ConstantRange d) :
    ∃ Res, (ofBounds L U).bind (·.unionWith Union .Smallest) = some Res ∧
      IsHull (residues d LowerDiv.toNat UpperDiv.toNat ∪ Union.elements) .Smallest Res := by
  have hne : L ≠ U := by
    intro heq
    have hmod : LowerDiv.toNat % 2 ^ d = UpperDiv.toNat % 2 ^ d := by rw [← hL, ← hU, heq]
    have hdvd := (Nat.modEq_iff_dvd' (Nat.le_of_lt hlt)).mp hmod
    have hle := Nat.le_of_dvd (by omega) hdvd
    omega
  have hpart : (⟨L, U, fun heq => absurd heq hne⟩ : ConstantRange d).elements =
      residues d LowerDiv.toNat UpperDiv.toNat := by
    ext x
    rw [mem_residues_iff hlt hshort, ← hL, ← hU]
    exact mem_iff hne
  obtain ⟨Res, hRes, hhull⟩ := unionWith_hull ⟨L, U, fun heq => absurd heq hne⟩ Union .Smallest
  rw [hpart] at hhull
  exact ⟨Res, by rw [ofBounds_of_ne hne, Option.bind_some, hRes], hhull⟩

theorem truncateDiv_hull (hd : d < w) (hlow : LowerDiv.toNat < 2 ^ d)
    (hlt : LowerDiv.toNat < UpperDiv.toNat) (Union : ConstantRange d) :
    ∃ Res, truncateDiv d LowerDiv UpperDiv Union = some Res ∧
      IsHull (residues d LowerDiv.toNat UpperDiv.toNat ∪ Union.elements) .Smallest Res := by
  have hfull : LowerDiv.toNat + 2 ^ d ≤ UpperDiv.toNat →
      ∃ Res, some getFull = some Res ∧
        IsHull (residues d LowerDiv.toNat UpperDiv.toNat ∪ Union.elements) .Smallest Res := by
    intro hlong
    refine ⟨_, rfl, IsHull.of_eq ?_⟩
    rw [residues_of_long hlong, Set.univ_union, elements_getFull]
  have hL : (LowerDiv.setWidth d).toNat = LowerDiv.toNat % 2 ^ d := BitVec.toNat_setWidth d _
  have hactive := getActiveBits_le_iff (V := UpperDiv) (Nat.le_of_lt hd)
  have hactive' := getActiveBits_le_iff (V := UpperDiv) (d := d + 1) hd
  unfold truncateDiv
  dsimp only
  split
  · next hfew =>
    exact part_hull hlt (by omega) hL (BitVec.toNat_setWidth d _) Union
  · next hmany =>
    rw [hactive, Nat.not_lt] at hmany
    split
    · next hone =>
      have hclear := toNat_clearBit (hactive'.mp (Nat.le_of_eq hone))
      have hwrapped : UpperDiv.toNat % 2 ^ d + 2 ^ d = UpperDiv.toNat := by
        rw [Nat.mod_eq_sub_mod hmany, Nat.mod_eq_of_lt (by omega)]
        omega
      split
      · next hult =>
        rw [BitVec.ult, decide_eq_true_iff, hclear] at hult
        refine part_hull hlt (by omega) hL ?_ Union
        rw [BitVec.toNat_setWidth, hclear, Nat.mod_mod]
      · next hult =>
        rw [BitVec.ult, decide_eq_true_iff, hclear] at hult
        exact hfull (by omega)
    · exact hfull (by omega)

theorem truncatePart_hull (hd : d < w) (hlt : LowerDiv.toNat < UpperDiv.toNat)
    (Union : ConstantRange d) :
    ∃ Res, truncatePart d LowerDiv UpperDiv Union = some Res ∧
      IsHull (residues d LowerDiv.toNat UpperDiv.toNat ∪ Union.elements) .Smallest Res := by
  have hactive := getActiveBits_le_iff (V := LowerDiv) (Nat.le_of_lt hd)
  unfold truncatePart
  split
  · have hadjust := toNat_and_getBitsSetFrom (V := LowerDiv) (d := d)
    have hdiv := Nat.div_add_mod LowerDiv.toNat (2 ^ d)
    have hL := toNat_sub_of_le (a := LowerDiv) (b := LowerDiv &&& getBitsSetFrom w d) (by omega)
    have hU := toNat_sub_of_le (a := UpperDiv) (b := LowerDiv &&& getBitsSetFrom w d) (by omega)
    have hsmall : (LowerDiv - (LowerDiv &&& getBitsSetFrom w d)).toNat < 2 ^ d := by omega
    have hmoved : (LowerDiv - (LowerDiv &&& getBitsSetFrom w d)).toNat <
        (UpperDiv - (LowerDiv &&& getBitsSetFrom w d)).toNat := by omega
    have hlower : 2 ^ d * (LowerDiv.toNat / 2 ^ d) +
        (LowerDiv - (LowerDiv &&& getBitsSetFrom w d)).toNat = LowerDiv.toNat := by omega
    have hupper : 2 ^ d * (LowerDiv.toNat / 2 ^ d) +
        (UpperDiv - (LowerDiv &&& getBitsSetFrom w d)).toNat = UpperDiv.toNat := by omega
    have hpart := truncateDiv_hull hd hsmall hmoved Union
    rw [← residues_add_mul (LowerDiv.toNat / 2 ^ d), hlower, hupper] at hpart
    exact hpart
  · next hfew => exact truncateDiv_hull hd (hactive.mp (Nat.not_lt.mp hfew)) hlt Union

end Parts

def truncations (R : ConstantRange w) (d : Nat) : Set (BitVec d) :=
  (fun v => v.setWidth d) '' R.elements

theorem mem_truncations_iff {x : BitVec d} :
    x ∈ R.truncations d ↔ ∃ v ∈ R, v.toNat % 2 ^ d = x.toNat := by
  constructor
  · rintro ⟨v, hv, rfl⟩
    exact ⟨v, hv, (BitVec.toNat_setWidth d v).symm⟩
  · rintro ⟨v, hv, heq⟩
    exact ⟨v, hv, BitVec.eq_of_toNat_eq ((BitVec.toNat_setWidth d v).trans heq)⟩

theorem truncations_of_interval {a b : Nat} (hb : b ≤ 2 ^ w)
    (hR : ∀ v, v ∈ R ↔ a ≤ v.toNat ∧ v.toNat < b) : R.truncations d = residues d a b := by
  ext x
  rw [mem_truncations_iff]
  constructor
  · rintro ⟨v, hv, heq⟩
    exact ⟨v.toNat, ((hR v).mp hv).1, ((hR v).mp hv).2, heq⟩
  · rintro ⟨k, hak, hkb, heq⟩
    have hk : (BitVec.ofNat w k).toNat = k := by
      rw [BitVec.toNat_ofNat, Nat.mod_eq_of_lt (by omega)]
    refine ⟨BitVec.ofNat w k, (hR _).mpr ?_, ?_⟩
    · rw [hk]
      exact ⟨hak, hkb⟩
    · rw [hk, heq]

theorem countr_one_eq_iff (h : d < w) {U : BitVec w} (hU : U.toNat < 2 ^ d) :
    countr_one U = d ↔ U.toNat = 2 ^ d - 1 := by
  have hhigh : ∀ i, d ≤ i → U.getLsbD i = false := by
    intro i hi
    rw [← BitVec.testBit_toNat]
    exact Nat.testBit_lt_two_pow (Nat.lt_of_lt_of_le hU (Nat.pow_le_pow_right (by decide) hi))
  constructor
  · intro heq
    have hlow := (le_countr_one_iff (Nat.le_of_lt h)).mp (Nat.le_of_eq heq.symm)
    apply Nat.eq_of_testBit_eq
    intro i
    rw [Nat.testBit_two_pow_sub_one, BitVec.testBit_toNat]
    by_cases hi : i < d
    · rw [hlow i hi, decide_eq_true hi]
    · rw [hhigh i (Nat.not_lt.mp hi), decide_eq_false hi]
  · intro heq
    refine countr_one_eq h (fun i hi => ?_) (hhigh d (Nat.le_refl d))
    rw [← BitVec.testBit_toNat, heq, Nat.testBit_two_pow_sub_one]
    exact decide_eq_true hi

section Wrapped

variable (h : d < w) (hwrap : R.Upper.toNat < R.Lower.toNat)

include h hwrap

omit h in
theorem mem_wrapped_iff (v : BitVec w) :
    v ∈ R ↔ R.Lower.toNat ≤ v.toNat ∨ v.toNat < R.Upper.toNat :=
  (mem_iff (ne_of_toNat_ne (Nat.ne_of_gt hwrap))).trans (Arc.mem_of_ge (Nat.le_of_lt hwrap))

theorem truncations_of_wrapped_ends {x : BitVec d} (hx : x.toNat + 1 = 2 ^ d ∨
    x.toNat < R.Upper.toNat) : x ∈ R.truncations d := by
  rw [mem_truncations_iff]
  rcases hx with hlast | hlow
  · refine ⟨BitVec.allOnes w, (mem_wrapped_iff hwrap _).mpr (Or.inl ?_), ?_⟩
    · have hlt := R.Lower.isLt
      rw [BitVec.toNat_allOnes]
      omega
    · have hmul : 2 ^ w = 2 ^ d * 2 ^ (w - d) := by
        rw [← Nat.pow_add, Nat.add_sub_cancel' (Nat.le_of_lt h)]
      have hpos := Nat.two_pow_pos (w - d)
      have hsplit : 2 ^ w - 1 = 2 ^ d * (2 ^ (w - d) - 1) + (2 ^ d - 1) := by
        rw [hmul, Nat.mul_sub, Nat.mul_one]
        have hle := Nat.le_mul_of_pos_right (2 ^ d) hpos
        omega
      rw [BitVec.toNat_allOnes, hsplit, Nat.mul_add_mod, Nat.mod_eq_of_lt (by omega)]
      omega
  · have hx' := toNat_zext h.le x
    refine ⟨x.setWidth w, (mem_wrapped_iff hwrap _).mpr (Or.inr ?_), ?_⟩
    · rwa [hx']
    · rw [hx', Nat.mod_eq_of_lt x.isLt]

theorem truncations_of_covered (hcover : 2 ^ d ≤ R.Upper.toNat + 1) :
    R.truncations d = Set.univ := by
  refine Set.eq_univ_of_forall fun x => truncations_of_wrapped_ends h hwrap ?_
  omega

theorem truncations_of_wrapped (hupper : R.Upper.toNat + 1 < 2 ^ d) {Union : ConstantRange d}
    (hUnion : ∀ x : BitVec d, x ∈ Union ↔ x.toNat + 1 = 2 ^ d ∨ x.toNat < R.Upper.toNat) :
    R.truncations d =
      residues d R.Lower.toNat (BitVec.allOnes w).toNat ∪ Union.elements := by
  ext x
  constructor
  · intro hmem
    obtain ⟨v, hv, heq⟩ := mem_truncations_iff.mp hmem
    rcases (mem_wrapped_iff hwrap v).mp hv with hlower | hlow
    · by_cases hlast : v.toNat < (BitVec.allOnes w).toNat
      · exact Or.inl ⟨v.toNat, hlower, hlast, heq⟩
      · refine Or.inr ((hUnion x).mpr (Or.inl ?_))
        have hpow := pow_dvd_pow 2 (Nat.le_of_lt h)
        rw [BitVec.toNat_allOnes] at hlast
        have hsucc : (v.toNat + 1) % 2 ^ d = 0 := by
          have heq : v.toNat + 1 = 2 ^ w := by omega
          rw [heq]
          exact Nat.mod_eq_zero_of_dvd hpow
        rw [Nat.add_mod, heq] at hsucc
        by_contra hne
        rw [Nat.mod_eq_of_lt (a := 1) (by omega), Nat.mod_eq_of_lt (by omega)] at hsucc
        omega
    · refine Or.inr ((hUnion x).mpr (Or.inr ?_))
      rw [Nat.mod_eq_of_lt (by omega)] at heq
      omega
  · rintro (⟨k, hlower, hk, heq⟩ | hmem)
    · rw [BitVec.toNat_allOnes] at hk
      have hnat : (BitVec.ofNat w k).toNat = k := by
        rw [BitVec.toNat_ofNat, Nat.mod_eq_of_lt (by omega)]
      rw [mem_truncations_iff]
      refine ⟨BitVec.ofNat w k, (mem_wrapped_iff hwrap _).mpr (Or.inl ?_), ?_⟩
      · rwa [hnat]
      · rwa [hnat]
    · exact truncations_of_wrapped_ends h hwrap ((hUnion x).mp hmem)

end Wrapped

theorem truncate_wrapped_hull (h : d < w) (hempty : R.isEmptySet = false)
    (hfull : R.isFullSet = false) (hwrap : R.isUpperWrapped = true) :
    ∃ Res, R.truncate d = some Res ∧ IsHull (R.truncations d) .Smallest Res := by
  have hlt : R.Upper.toNat < R.Lower.toNat := by
    rwa [isUpperWrapped, BitVec.ult, decide_eq_true_iff] at hwrap
  rw [truncate, if_neg (Nat.not_le.mpr h), hempty, if_neg Bool.false_ne_true, hfull,
    if_neg Bool.false_ne_true, if_pos hwrap]
  have hactive := getActiveBits_le_iff (V := R.Upper) (Nat.le_of_lt h)
  by_cases hcover : (decide (d < getActiveBits R.Upper) || decide (countr_one R.Upper = d)) = true
  · rw [if_pos hcover]
    refine ⟨_, rfl, IsHull.of_eq ?_⟩
    rw [Bool.or_eq_true, decide_eq_true_iff, decide_eq_true_iff] at hcover
    rw [elements_getFull, truncations_of_covered h hlt]
    by_cases hlarge : 2 ^ d ≤ R.Upper.toNat
    · omega
    · have hones := (countr_one_eq_iff h (Nat.not_le.mp hlarge)).mp (by omega)
      omega
  · rw [if_neg hcover]
    rw [Bool.or_eq_true, decide_eq_true_iff, decide_eq_true_iff, not_or, Nat.not_lt, hactive]
      at hcover
    have hones := (countr_one_eq_iff h hcover.1).not.mp hcover.2
    have hupper : (R.Upper.setWidth d).toNat = R.Upper.toNat := by
      rw [BitVec.toNat_setWidth, Nat.mod_eq_of_lt hcover.1]
    have hne : BitVec.allOnes d ≠ R.Upper.setWidth d := by
      apply ne_of_toNat_ne
      rw [hupper, BitVec.toNat_allOnes]
      omega
    have hUnion : ∀ x : BitVec d,
        x ∈ (⟨BitVec.allOnes d, R.Upper.setWidth d, fun heq => absurd heq hne⟩ : ConstantRange d) ↔
          x.toNat + 1 = 2 ^ d ∨ x.toNat < R.Upper.toNat := by
      intro x
      refine (mem_iff hne).trans ?_
      rw [hupper, BitVec.toNat_allOnes, Arc.mem_of_ge (by omega)]
      omega
    have himage := truncations_of_wrapped h hlt (by omega) hUnion
    rw [ofBounds_of_ne hne, Option.bind_eq_bind, Option.bind_some]
    split
    · next hlast =>
      refine ⟨_, rfl, IsHull.of_eq ?_⟩
      have hnone : residues d R.Lower.toNat (BitVec.allOnes w).toNat = ∅ := by
        refine Set.eq_empty_of_forall_notMem ?_
        rintro x ⟨k, hk, hk', -⟩
        rw [hlast] at hk
        omega
      rw [himage, hnone, Set.empty_union]
    · next hlast =>
      rw [himage]
      refine truncatePart_hull h ?_ _
      have hne' : R.Lower.toNat ≠ (BitVec.allOnes w).toNat := fun heq =>
        hlast (BitVec.eq_of_toNat_eq heq)
      rw [BitVec.toNat_allOnes] at hne' ⊢
      omega

theorem interval_of_not_wrapped (hne : R.Lower ≠ R.Upper) (hwrap : R.isUpperWrapped = false) :
    R.Lower.toNat < R.Upper.toNat ∧
      ∀ v, v ∈ R ↔ R.Lower.toNat ≤ v.toNat ∧ v.toNat < R.Upper.toNat := by
  rw [isUpperWrapped, BitVec.ult, decide_eq_false_iff_not] at hwrap
  have hlt : R.Lower.toNat < R.Upper.toNat := by
    have hnat := toNat_ne hne
    omega
  exact ⟨hlt, fun v => (mem_iff hne).trans (Arc.mem_of_lt hlt)⟩

theorem truncations_getFull (h : d < w) :
    (getFull : ConstantRange w).truncations d = Set.univ := by
  refine Set.eq_univ_of_forall fun x => mem_truncations_iff.mpr ⟨x.setWidth w, mem_getFull _, ?_⟩
  rw [toNat_zext h.le, Nat.mod_eq_of_lt x.isLt]

theorem truncations_of_isEmptySet (hw : 0 < w) (hempty : R.isEmptySet = true) (d : Nat) :
    R.truncations d = ∅ := by
  rw [truncations, elements_of_isEmptySet hw hempty, Set.image_empty]

theorem truncate_hull (hd : 0 < d) (h : d < w) (R : ConstantRange w) :
    ∃ Res, R.truncate d = some Res ∧ IsHull (R.truncations d) .Smallest Res := by
  have hw : 0 < w := by omega
  cases hempty : R.isEmptySet
  · rcases full_or_ne hempty with rfl | hne
    · refine ⟨getFull, ?_, IsHull.of_eq ?_⟩
      · rw [truncate, if_neg (Nat.not_le.mpr h), hempty, if_neg Bool.false_ne_true,
          isFullSet_getFull, if_pos rfl]
      · rw [truncations_getFull h, elements_getFull]
    · cases hwrap : R.isUpperWrapped
      · obtain ⟨hlt, hmem⟩ := interval_of_not_wrapped hne hwrap
        obtain ⟨Res, hRes, hhull⟩ := truncatePart_hull h hlt getEmpty
        rw [elements_getEmpty hd, Set.union_empty,
          ← truncations_of_interval (Nat.le_of_lt R.Upper.isLt) hmem] at hhull
        refine ⟨Res, ?_, hhull⟩
        rw [truncate, if_neg (Nat.not_le.mpr h), hempty, if_neg Bool.false_ne_true,
          isFullSet_of_ne hne, if_neg Bool.false_ne_true, hwrap, if_neg Bool.false_ne_true, hRes]
      · exact truncate_wrapped_hull h hempty (isFullSet_of_ne hne) hwrap
  · refine ⟨getEmpty, ?_, IsHull.of_eq ?_⟩
    · rw [truncate, if_neg (Nat.not_le.mpr h), if_pos hempty]
    · rw [truncations_of_isEmptySet hw hempty, elements_getEmpty hd]

theorem representable_truncations (hd : 0 < d) (h : d < w) (hwrap : R.isWrappedSet = false) :
    Representable (R.truncations d) := by
  have hw : 0 < w := by omega
  cases hempty : R.isEmptySet
  · rcases full_or_ne hempty with rfl | hne
    · exact ⟨getFull, by rw [truncations_getFull h, elements_getFull]⟩
    · cases hupper : R.isUpperWrapped
      · obtain ⟨hlt, hmem⟩ := interval_of_not_wrapped hne hupper
        rw [truncations_of_interval (Nat.le_of_lt R.Upper.isLt) hmem]
        exact representable_residues hlt
      · have hzero : R.Upper = 0 := by
          rw [isUpperWrapped] at hupper
          rw [isWrappedSet, hupper, Bool.true_and, decide_eq_false_iff_not, not_not] at hwrap
          exact hwrap
        have hnat : R.Upper.toNat = 0 := by
          rw [hzero]
          rfl
        have hlt : R.Upper.toNat < R.Lower.toNat := by
          rwa [isUpperWrapped, BitVec.ult, decide_eq_true_iff] at hupper
        have hmem : ∀ v, v ∈ R ↔ R.Lower.toNat ≤ v.toNat ∧ v.toNat < 2 ^ w := by
          intro v
          rw [mem_wrapped_iff hlt]
          omega
        rw [truncations_of_interval (Nat.le_refl _) hmem]
        exact representable_residues R.Lower.isLt
  · exact ⟨getEmpty, by rw [truncations_of_isEmptySet hw hempty, elements_getEmpty hd]⟩

/-- A cast around an image, equal to its hull in the order of a value. -/
structure IsTight (image : Set (BitVec d)) (value : BitVec d → Int)
    (Res : Option (ConstantRange d)) : Prop where
  covers : ∃ C, Res = some C ∧ image ⊆ C.elements
  hull : ∃ C, Res = some C ∧ C.elements = imageHull image value

theorem IsTight.of_hull {image : Set (BitVec d)} {value : BitVec d → Int}
    {Res : Option (ConstantRange d)} (h : ∃ C, Res = some C ∧ C.elements = imageHull image value) :
    IsTight image value Res := by
  refine ⟨?_, h⟩
  obtain ⟨C, hC, heq⟩ := h
  refine ⟨C, hC, fun x hx => ?_⟩
  rw [heq]
  exact ⟨x, hx, x, hx, Int.le_refl _, Int.le_refl _⟩

/-- Extensions are hulls; truncations are covered, and exact where the range does not wrap. -/
theorem casts_sound_tight (hw : 0 < w) (R : ConstantRange w) :
    (∀ d, w < d →
      IsTight ((fun v => v.setWidth d) '' R.elements) (fun v => v.toNat) (R.zeroExtend d) ∧
        IsTight ((fun v => v.signExtend d) '' R.elements) BitVec.toInt (R.signExtend d)) ∧
    ∀ d, 0 < d → d < w → ∃ Res, R.truncate d = some Res ∧
      (∀ v ∈ R, v.setWidth d ∈ Res) ∧
      (R.isWrappedSet = false → Res.elements = R.truncations d ∧
        (R.truncations d ≠ Set.univ → Res.isFullSet = false)) := by
  refine ⟨fun d h => ⟨IsTight.of_hull (zeroExtend_spec hw h R),
    IsTight.of_hull (signExtend_spec hw h R)⟩, fun d hd h => ?_⟩
  obtain ⟨Res, hRes, hhull⟩ := truncate_hull hd h R
  refine ⟨Res, hRes, fun v hv => hhull.covers ⟨v, hv, rfl⟩, fun hwrap => ?_⟩
  have hexact := hhull.exact (representable_truncations hd h hwrap)
  refine ⟨hexact, fun hproper => ?_⟩
  rw [Bool.eq_false_iff, Ne, isFullSet_iff]
  rintro rfl
  exact hproper (hexact.symm.trans elements_getFull)

theorem casts_sound_tight_byte :
    (∀ d, 8 < d →
      IsTight ((fun v => v.setWidth d) '' (⟨250, 6, by decide⟩ : ConstantRange 8).elements)
          (fun v => v.toNat) (zeroExtend (⟨250, 6, by decide⟩ : ConstantRange 8) d) ∧
        IsTight ((fun v => v.signExtend d) '' (⟨250, 6, by decide⟩ : ConstantRange 8).elements)
          BitVec.toInt (signExtend (⟨250, 6, by decide⟩ : ConstantRange 8) d)) ∧
    ∀ d, 0 < d → d < 8 → ∃ Res, truncate (⟨250, 6, by decide⟩ : ConstantRange 8) d = some Res ∧
      (∀ v ∈ (⟨250, 6, by decide⟩ : ConstantRange 8), v.setWidth d ∈ Res) ∧
      ((⟨250, 6, by decide⟩ : ConstantRange 8).isWrappedSet = false →
        Res.elements = (⟨250, 6, by decide⟩ : ConstantRange 8).truncations d ∧
          ((⟨250, 6, by decide⟩ : ConstantRange 8).truncations d ≠ Set.univ →
            Res.isFullSet = false)) :=
  casts_sound_tight (by decide) _

end SmlnjLlvm.ConstantRange
