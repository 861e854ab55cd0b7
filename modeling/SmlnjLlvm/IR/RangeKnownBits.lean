import SmlnjLlvm.IR.RangeBits

/-!
# Known bits and ranges

A set of known bits has a least and a greatest member, in either signedness, and
its range is the interval between them. A range keeps the bits that the words
between its unsigned ends share.
-/

namespace SmlnjLlvm.ConstantRange

open Words

variable {w : Nat} {R : ConstantRange w} {v : BitVec w} {K : KnownBits w}

def wordValue (IsSigned : Bool) (v : BitVec w) : Int := if IsSigned then v.toInt else v.toNat

/-- `lo` and `hi` are the least and the greatest word consistent with the known bits. -/
structure Extremes (K : KnownBits w) (IsSigned : Bool) (lo hi : BitVec w) : Prop where
  lo_mem : lo ∈ K
  hi_mem : hi ∈ K
  between : ∀ v ∈ K, wordValue IsSigned lo ≤ wordValue IsSigned v ∧
    wordValue IsSigned v ≤ wordValue IsSigned hi

/-- The range holds the interval between the extremes, and nothing else. -/
def IsInterval (K : KnownBits w) (IsSigned : Bool) (R : ConstantRange w) : Prop :=
  ∃ lo hi, Extremes K IsSigned lo hi ∧ ∀ v, v ∈ R ↔
    wordValue IsSigned lo ≤ wordValue IsSigned v ∧ wordValue IsSigned v ≤ wordValue IsSigned hi

theorem Extremes.unsigned (h : K.hasConflict = false) :
    Extremes K false K.getMinValue K.getMaxValue where
  lo_mem := KnownBits.getMinValue_mem h
  hi_mem := KnownBits.getMaxValue_mem h
  between v hv := by
    have hmin := KnownBits.getMinValue_le hv
    have hmax := KnownBits.le_getMaxValue hv
    simp only [wordValue, Bool.false_eq_true, if_false]
    omega

theorem Extremes.signed (hw : 0 < w) (h : K.hasConflict = false) :
    Extremes K true K.getSignedMinValue K.getSignedMaxValue where
  lo_mem := KnownBits.getSignedMinValue_mem h
  hi_mem := KnownBits.getSignedMaxValue_mem h
  between _ hv := ⟨KnownBits.getSignedMinValue_le hw hv, KnownBits.le_getSignedMaxValue hw hv⟩

theorem isUnknown_of_not_mem (hv : v ∈ K) (hnot : ~~~v ∈ K) : K.isUnknown = true := by
  have hzero : K.Zero = 0 := by
    apply BitVec.eq_of_getLsbD_eq
    intro i hi
    have hbits := (KnownBits.mem_iff.mp hv i).1
    have hnots := (KnownBits.mem_iff.mp hnot i).1
    cases hK : K.Zero.getLsbD i <;> simp_all
  have hone : K.One = 0 := by
    apply BitVec.eq_of_getLsbD_eq
    intro i hi
    have hbits := (KnownBits.mem_iff.mp hv i).2
    have hnots := (KnownBits.mem_iff.mp hnot i).2
    cases hK : K.One.getLsbD i <;> simp_all
  simp [KnownBits.isUnknown, hzero, hone]

theorem mem_of_isUnknown (h : K.isUnknown = true) (v : BitVec w) : v ∈ K := by
  rw [KnownBits.isUnknown, Bool.and_eq_true, beq_iff_eq, beq_iff_eq] at h
  rw [KnownBits.mem_iff]
  intro i
  simp [h.1, h.2]

theorem unsigned_ends_ne (h : K.hasConflict = false) (hunknown : ¬K.isUnknown = true) :
    K.getMinValue ≠ K.getMaxValue + 1 := by
  intro heq
  have hle := KnownBits.getMinValue_le (KnownBits.getMaxValue_mem h)
  rcases Nat.eq_zero_or_pos w with rfl | hw
  · exact hunknown (isUnknown_of_extremes (Subsingleton.elim _ _) (Subsingleton.elim _ _))
  · have hnat := congrArg BitVec.toNat heq
    have hadd := toNat_add_one_cases hw K.getMaxValue
    apply hunknown
    apply isUnknown_of_extremes
    · apply BitVec.eq_of_toNat_eq
      rw [BitVec.ofNat_eq_ofNat, BitVec.toNat_zero]
      omega
    · apply BitVec.eq_of_toNat_eq
      rw [BitVec.toNat_allOnes]
      omega

theorem not_intMax (hw : 0 < w) : ~~~BitVec.intMax w = BitVec.intMin w := by
  have hpow := two_pow_eq hw
  apply BitVec.eq_of_toNat_eq
  rw [BitVec.toNat_not, toNat_intMax, toNat_intMin hw]
  omega

theorem signed_ends_ne (hw : 0 < w) (h : K.hasConflict = false)
    (hunknown : ¬K.isUnknown = true) : K.getSignedMinValue ≠ K.getSignedMaxValue + 1 := by
  intro heq
  have hle := KnownBits.getSignedMinValue_le hw (KnownBits.getSignedMaxValue_mem h)
  by_cases hmax : K.getSignedMaxValue = BitVec.intMax w
  · have hmin : K.getSignedMinValue = ~~~BitVec.intMax w := by
      rw [heq, hmax, not_intMax hw, intMax_add_one hw]
    apply hunknown
    apply isUnknown_of_not_mem (v := BitVec.intMax w)
    · rw [← hmax]
      exact KnownBits.getSignedMaxValue_mem h
    · rw [← hmin]
      exact KnownBits.getSignedMinValue_mem h
  · have hsucc := toInt_add_one_of_ne hmax
    rw [← heq] at hsucc
    omega

theorem or_intMin_of_msb (h : v.msb = true) : v ||| BitVec.intMin w = v := by
  apply BitVec.eq_of_getLsbD_eq
  intro i _
  have hbelow := KnownBits.below_intMin h i
  rw [BitVec.getLsbD_or]
  cases hmin : (BitVec.intMin w).getLsbD i
  · rw [Bool.or_false]
  · rw [hbelow hmin, Bool.or_true]

theorem signed_ends_of_sign (hsign : (K.isNegative || K.isNonNegative) = true) :
    K.getSignedMinValue = K.getMinValue ∧ K.getSignedMaxValue = K.getMaxValue := by
  rcases Bool.or_eq_true_iff.mp hsign with hneg | hnonneg
  · have hor : K.One ||| BitVec.intMin w = K.One :=
      or_intMin_of_msb hneg
    have hone : K.One.msb = true := hneg
    simp [KnownBits.getSignedMinValue, KnownBits.getSignedMaxValue, KnownBits.getMinValue,
      KnownBits.getMaxValue, hor, hone]
  · have hzero : K.Zero.msb = true := hnonneg
    have hor : K.Zero ||| BitVec.intMin w = K.Zero :=
      or_intMin_of_msb hzero
    have hand : ~~~K.Zero &&& ~~~BitVec.intMin w = ~~~K.Zero := by
      rw [← BitVec.not_or, hor]
    simp [KnownBits.getSignedMinValue, KnownBits.getSignedMaxValue, KnownBits.getMinValue,
      KnownBits.getMaxValue, hand, hzero]

theorem fromKnownBits_eq (h : K.hasConflict = false) (hunknown : ¬K.isUnknown = true)
    (IsSigned : Bool) : fromKnownBits K IsSigned =
      if IsSigned then ofBounds K.getSignedMinValue (K.getSignedMaxValue + 1)
      else ofBounds K.getMinValue (K.getMaxValue + 1) := by
  unfold fromKnownBits
  rw [if_neg (Bool.eq_false_iff.mp h), if_neg hunknown]
  cases IsSigned with
  | false => rfl
  | true =>
    by_cases hsign : (K.isNegative || K.isNonNegative) = true
    · obtain ⟨hmin, hmax⟩ := signed_ends_of_sign hsign
      rw [if_pos (by simpa using hsign), if_pos rfl, hmin, hmax]
    · rw [if_neg (by simpa using hsign), if_pos rfl]
      simp only [KnownBits.isNegative, KnownBits.isNonNegative, Bool.or_eq_true, not_or,
        Bool.not_eq_true] at hsign
      simp [KnownBits.getSignedMinValue, KnownBits.getSignedMaxValue, KnownBits.getMinValue,
        KnownBits.getMaxValue, hsign.1, hsign.2]

theorem exists_extremes (h : K.hasConflict = false) (IsSigned : Bool) :
    ∃ lo hi, Extremes K IsSigned lo hi := by
  cases IsSigned with
  | false => exact ⟨_, _, Extremes.unsigned h⟩
  | true =>
    rcases Nat.eq_zero_or_pos w with rfl | hw
    · refine ⟨_, _, KnownBits.getMinValue_mem h, KnownBits.getMaxValue_mem h, fun v _ => ?_⟩
      rw [Subsingleton.elim v K.getMinValue, Subsingleton.elim K.getMaxValue K.getMinValue]
      exact ⟨le_rfl, le_rfl⟩
    · exact ⟨_, _, Extremes.signed hw h⟩

theorem fromKnownBits_interval (h : K.hasConflict = false) (IsSigned : Bool) :
    ∃ Res, fromKnownBits K IsSigned = some Res ∧ IsInterval K IsSigned Res := by
  by_cases hunknown : K.isUnknown = true
  · obtain ⟨lo, hi, hextremes⟩ := exists_extremes h IsSigned
    refine ⟨getFull, ?_, lo, hi, hextremes, fun v => ?_⟩
    · unfold fromKnownBits
      rw [if_neg (Bool.eq_false_iff.mp h), if_pos hunknown]
    · exact iff_of_true (mem_getFull v) (hextremes.between v (mem_of_isUnknown hunknown v))
  · rw [fromKnownBits_eq h hunknown]
    cases IsSigned with
    | false =>
      have hle := KnownBits.getMinValue_le (KnownBits.getMaxValue_mem h)
      obtain ⟨Res, hRes, hmem⟩ := ofBounds_between hle (unsigned_ends_ne h hunknown)
      refine ⟨Res, hRes, _, _, Extremes.unsigned h, fun v => ?_⟩
      rw [hmem]
      simp [Between, wordValue]
    | true =>
      have hw := width_pos (unsigned_ends_ne h hunknown)
      have hle := KnownBits.getSignedMinValue_le hw (KnownBits.getSignedMaxValue_mem h)
      obtain ⟨Res, hRes, hmem⟩ := ofBounds_sbetween hle (signed_ends_ne hw h hunknown)
      exact ⟨Res, hRes, _, _, Extremes.signed hw h, hmem⟩

theorem toKnownBits_no_conflict (R : ConstantRange w) : R.toKnownBits.hasConflict = false := by
  by_cases hempty : R.isEmptySet = true
  · unfold toKnownBits
    rw [if_pos hempty]
    exact KnownBits.not_conflict_of_mem (KnownBits.mem_unknown 0)
  · exact KnownBits.not_conflict_of_mem
      (mem_toKnownBits (getUnsignedMin_mem (Bool.eq_false_iff.mpr hempty)))

theorem fromKnownBits_toKnownBits (R : ConstantRange w) (IsSigned : Bool) :
    ∃ Res, fromKnownBits R.toKnownBits IsSigned = some Res ∧ Res.containsRange R = true ∧
      ∀ x ∈ R, x ∈ Res := by
  obtain ⟨Res, hRes, lo, hi, hextremes, hmem⟩ :=
    fromKnownBits_interval (toKnownBits_no_conflict R) IsSigned
  have hcontains : ∀ x ∈ R, x ∈ Res := fun x hx =>
    (hmem x).mpr (hextremes.between x (mem_toKnownBits hx))
  refine ⟨Res, hRes, ?_, hcontains⟩
  rcases Nat.eq_zero_or_pos w with rfl | hw
  · unfold containsRange
    rw [isFullSet_of_width_zero rfl]
    rfl
  · exact (containsRange_iff hw Res R).mpr hcontains

structure KnownBitsConnected (w : Nat) : Prop where
  interval : ∀ K : KnownBits w, K.hasConflict = false → ∀ IsSigned,
    ∃ Res, fromKnownBits K IsSigned = some Res ∧ IsInterval K IsSigned Res
  consistent : ∀ R : ConstantRange w, R.isEmptySet = false → ∀ x ∈ R, x ∈ R.toKnownBits
  contains : ∀ (R : ConstantRange w) (IsSigned : Bool), R.isEmptySet = false →
    ∃ Res, fromKnownBits R.toKnownBits IsSigned = some Res ∧ Res.containsRange R = true ∧
      ∀ x ∈ R, x ∈ Res

/-- Known bits and ranges are connected both ways, at every width. -/
theorem knownBits_connected (w : Nat) : KnownBitsConnected w where
  interval _ h IsSigned := fromKnownBits_interval h IsSigned
  consistent _ _ _ hx := mem_toKnownBits hx
  contains R IsSigned _ := fromKnownBits_toKnownBits R IsSigned

end SmlnjLlvm.ConstantRange
