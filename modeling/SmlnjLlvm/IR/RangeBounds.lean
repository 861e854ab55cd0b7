import SmlnjLlvm.IR.RangeSets

/-!
# The least and the greatest elements of a range

The four ends of a range bound its elements and belong to it. In the other
direction, the words between two words are the elements of a range, in the
unsigned and in the signed order.
-/

namespace SmlnjLlvm.ConstantRange

open Words

variable {w : Nat} {R : ConstantRange w} {v lo hi : BitVec w}

theorem getUnsignedMin_le (h : v ∈ R) : R.getUnsignedMin.toNat ≤ v.toNat := by
  unfold getUnsignedMin isWrappedSet
  rcases eq_cases R with rfl | rfl | hR
  · rw [isFullSet_getFull, Bool.true_or, if_pos rfl]
    exact Nat.zero_le _
  · simp [getEmpty, ofFull]
  · rw [isFullSet_of_ne hR, Bool.false_or]
    split
    · exact Nat.zero_le _
    · next hwrap =>
      rw [mem_iff hR] at h
      have hupper : R.Upper ≠ 0 ∨ R.Upper.toNat = 0 := by
        by_cases hzero : R.Upper = 0
        · exact Or.inr (by rw [hzero]; rfl)
        · exact Or.inl hzero
      simp only [BitVec.ult, Bool.and_eq_true, decide_eq_true_iff, not_and, not_not] at hwrap
      unfold Arc.Mem at h
      have hlt := v.isLt
      rcases hupper with hupper | hupper
      · have hnot : ¬R.Upper.toNat < R.Lower.toNat := fun hlt => hupper (hwrap hlt)
        have hne := toNat_ne hR
        omega
      · omega

theorem le_getUnsignedMax (h : v ∈ R) : v.toNat ≤ R.getUnsignedMax.toNat := by
  unfold getUnsignedMax isUpperWrapped
  rcases eq_cases R with rfl | rfl | hR
  · rw [isFullSet_getFull, Bool.true_or, if_pos rfl, BitVec.toNat_allOnes]
    omega
  · rcases Nat.eq_zero_or_pos w with rfl | hw
    · omega
    · exact absurd h (not_mem_getEmpty hw v)
  · rw [isFullSet_of_ne hR, Bool.false_or, BitVec.ult]
    split
    · rw [BitVec.toNat_allOnes]
      omega
    · next hwrap =>
      rw [decide_eq_true_iff] at hwrap
      rw [mem_iff hR] at h
      have hne := toNat_ne hR
      have hsub := toNat_sub_one_cases (width_pos hR) R.Upper
      unfold Arc.Mem at h
      omega

theorem getSignedMin_le (h : v ∈ R) : R.getSignedMin.toInt ≤ v.toInt := by
  rcases Nat.eq_zero_or_pos w with rfl | hw
  · rw [Subsingleton.elim R.getSignedMin v]
  have hv := toInt_sign_cases v
  have hmin := toInt_sign_cases (BitVec.intMin w)
  rw [toNat_intMin hw] at hmin
  have hpow := two_pow_eq hw
  unfold getSignedMin isSignWrappedSet
  rcases eq_cases R with rfl | rfl | hR
  · rw [isFullSet_getFull, Bool.true_or, if_pos rfl]
    omega
  · exact absurd h (not_mem_getEmpty hw v)
  · have hlower := toInt_sign_cases R.Lower
    have hupper := toInt_sign_cases R.Upper
    rw [isFullSet_of_ne hR, Bool.false_or]
    split
    · omega
    · next hwrap =>
      have hne := toNat_ne hR
      rw [mem_iff hR] at h
      simp only [BitVec.slt, Bool.and_eq_true, decide_eq_true_iff, not_and, not_not] at hwrap
      by_cases hslt : R.Upper.toInt < R.Lower.toInt
      · have hnat : R.Upper.toNat = 2 ^ (w - 1) := by rw [hwrap hslt, toNat_intMin hw]
        unfold Arc.Mem at h
        omega
      · unfold Arc.Mem at h
        omega

theorem le_getSignedMax (h : v ∈ R) : v.toInt ≤ R.getSignedMax.toInt := by
  rcases Nat.eq_zero_or_pos w with rfl | hw
  · rw [Subsingleton.elim R.getSignedMax v]
  have hv := toInt_sign_cases v
  have hmax := toInt_sign_cases (BitVec.intMax w)
  rw [toNat_intMax] at hmax
  have hpow := two_pow_eq hw
  unfold getSignedMax isUpperSignWrapped
  rcases eq_cases R with rfl | rfl | hR
  · rw [isFullSet_getFull, Bool.true_or, if_pos rfl]
    omega
  · exact absurd h (not_mem_getEmpty hw v)
  · have hlower := toInt_sign_cases R.Lower
    have hupper := toInt_sign_cases R.Upper
    have hpred := toInt_sign_cases (R.Upper - 1)
    have hsub := toNat_sub_one_cases hw R.Upper
    have hne := toNat_ne hR
    rw [isFullSet_of_ne hR, Bool.false_or]
    split
    · omega
    · next hwrap =>
      rw [mem_iff hR] at h
      rw [BitVec.slt, decide_eq_true_iff] at hwrap
      unfold Arc.Mem at h
      omega

/-! ## The ends are elements -/

theorem isEmptySet_eq_false (hw : 0 < w) (h : v ∈ R) : R.isEmptySet = false := by
  rw [Bool.eq_false_iff, Ne, isEmptySet_iff]
  rintro rfl
  exact not_mem_getEmpty hw v h

theorem width_pos_of_not_empty (h : R.isEmptySet = false) : 0 < w := by
  by_contra hzero
  rw [isEmptySet_of_width_zero (Nat.eq_zero_of_not_pos hzero)] at h
  cases h

theorem full_or_ne (hempty : R.isEmptySet = false) : R = getFull ∨ R.Lower ≠ R.Upper := by
  rcases eq_cases R with rfl | rfl | hR
  · exact Or.inl rfl
  · rw [isEmptySet_getEmpty] at hempty
    cases hempty
  · exact Or.inr hR

theorem getUnsignedMin_mem (hempty : R.isEmptySet = false) : R.getUnsignedMin ∈ R := by
  rcases full_or_ne hempty with rfl | hR
  · exact mem_getFull _
  · unfold getUnsignedMin
    rw [isFullSet_of_ne hR, Bool.false_or]
    split
    · next hwrap =>
      have hnat : (0 : BitVec w).toNat = 0 := rfl
      have hpos : R.Upper.toNat ≠ 0 := by
        intro hzero
        rw [isWrappedSet, Bool.and_eq_true, decide_eq_true_iff] at hwrap
        exact hwrap.2 (BitVec.eq_of_toNat_eq hzero)
      rw [isWrappedSet, Bool.and_eq_true, BitVec.ult, decide_eq_true_iff] at hwrap
      rw [mem_iff hR, hnat, Arc.mem_of_ge (Nat.le_of_lt hwrap.1)]
      omega
    · exact Lower_mem hR

theorem getUnsignedMax_mem (hempty : R.isEmptySet = false) : R.getUnsignedMax ∈ R := by
  rcases full_or_ne hempty with rfl | hR
  · exact mem_getFull _
  · unfold getUnsignedMax isUpperWrapped
    rw [isFullSet_of_ne hR, Bool.false_or, BitVec.ult, mem_iff hR]
    unfold Arc.Mem
    split
    · rw [BitVec.toNat_allOnes]
      next hwrap =>
      rw [decide_eq_true_iff] at hwrap
      omega
    · next hwrap =>
      have hsub := toNat_sub_one_cases (width_pos hR) R.Upper
      omega

theorem getSignedMin_mem (hempty : R.isEmptySet = false) : R.getSignedMin ∈ R := by
  rcases full_or_ne hempty with rfl | hR
  · exact mem_getFull _
  · unfold getSignedMin
    rw [isFullSet_of_ne hR, Bool.false_or]
    split
    · next hwrap =>
      have hw := width_pos hR
      have hpow := two_pow_eq hw
      have hlower := toInt_sign_cases R.Lower
      have hupper := toInt_sign_cases R.Upper
      have hne : R.Upper.toNat ≠ 2 ^ (w - 1) := by
        intro heq
        rw [isSignWrappedSet, Bool.and_eq_true, decide_eq_true_iff] at hwrap
        exact hwrap.2 (BitVec.eq_of_toNat_eq (heq.trans (toNat_intMin hw).symm))
      rw [isSignWrappedSet, Bool.and_eq_true, BitVec.slt, decide_eq_true_iff] at hwrap
      rw [mem_iff hR, toNat_intMin hw]
      unfold Arc.Mem
      omega
    · exact Lower_mem hR

theorem getSignedMax_mem (hempty : R.isEmptySet = false) : R.getSignedMax ∈ R := by
  rcases full_or_ne hempty with rfl | hR
  · exact mem_getFull _
  · unfold getSignedMax isUpperSignWrapped
    have hw := width_pos hR
    have hpow := two_pow_eq hw
    have hlower := toInt_sign_cases R.Lower
    have hupper := toInt_sign_cases R.Upper
    rw [isFullSet_of_ne hR, Bool.false_or, BitVec.slt, mem_iff hR]
    unfold Arc.Mem
    split
    · next hwrap =>
      rw [decide_eq_true_iff] at hwrap
      rw [toNat_intMax]
      omega
    · have hsub := toNat_sub_one_cases hw R.Upper
      omega

theorem first_mem (hempty : R.isEmptySet = false) : R.Lower ∈ R := by
  rcases full_or_ne hempty with rfl | hR
  · exact mem_getFull _
  · exact Lower_mem hR

theorem last_mem (hempty : R.isEmptySet = false) : R.Upper - 1 ∈ R := by
  rcases full_or_ne hempty with rfl | hR
  · exact mem_getFull _
  · have hlt := R.Lower.isLt
    have hsub := toNat_sub_one_cases (width_pos hR) R.Upper
    rw [mem_iff hR]
    unfold Arc.Mem
    omega

theorem intersectWith_part (R : ConstantRange w) {CR : ConstantRange w}
    (hCR : 2 * CR.elements.ncard ≤ 2 ^ w) :
    ∃ Res, R.intersectWith CR .Smallest = some Res ∧ (∀ v ∈ R, v ∈ CR → v ∈ Res) ∧
      (∀ v ∈ Res, v ∈ CR) ∧ (Res.isEmptySet = false → Res.Lower ∈ R ∧ Res.Upper - 1 ∈ R) := by
  obtain ⟨Res, hRes, heq | ⟨hR, hCR_ne, hcyclic, rfl⟩⟩ := intersectWith_half R hCR
  · have hmem : ∀ v, v ∈ Res ↔ v ∈ R ∧ v ∈ CR := fun v => Set.ext_iff.mp heq v
    exact ⟨Res, hRes, fun v hv hv' => (hmem v).mpr ⟨hv, hv'⟩, fun v hv => ((hmem v).mp hv).2,
      fun h => ⟨((hmem _).mp (first_mem h)).1, ((hmem _).mp (last_mem h)).1⟩⟩
  · refine ⟨Res, hRes, fun v _ hv => hv, fun v hv => hv, fun _ => ?_⟩
    have hsub := toNat_sub_one_cases (width_pos hR) Res.Upper
    rw [mem_iff hR, mem_iff hR]
    unfold Arc.Cyclic at hcyclic
    unfold Arc.Mem
    omega

theorem mem_iff_of_zero_not_mem (hempty : R.isEmptySet = false) (hzero : (0 : BitVec w) ∉ R) :
    v ∈ R ↔ R.Lower.toNat ≤ v.toNat ∧ v.toNat ≤ (R.Upper - 1).toNat := by
  rcases full_or_ne hempty with rfl | hR
  · exact absurd (mem_getFull 0) hzero
  · have hnat : (0 : BitVec w).toNat = 0 := rfl
    have hsub := toNat_sub_one_cases (width_pos hR) R.Upper
    rw [mem_iff hR, hnat] at hzero
    rw [mem_iff hR]
    unfold Arc.Mem at *
    omega

theorem getUnsignedMin_le_getUnsignedMax (hempty : R.isEmptySet = false) :
    R.getUnsignedMin.toNat ≤ R.getUnsignedMax.toNat :=
  getUnsignedMin_le (getUnsignedMax_mem hempty)

theorem getSignedMin_le_getSignedMax (hempty : R.isEmptySet = false) :
    R.getSignedMin.toInt ≤ R.getSignedMax.toInt :=
  getSignedMin_le (getSignedMax_mem hempty)

/-- The words from `lo` up to `hi`, as unsigned numbers. -/
def Between (lo hi v : BitVec w) : Prop := lo.toNat ≤ v.toNat ∧ v.toNat ≤ hi.toNat

/-- The words from `lo` up to `hi`, as signed numbers. -/
def SBetween (lo hi v : BitVec w) : Prop := lo.toInt ≤ v.toInt ∧ v.toInt ≤ hi.toInt

theorem arc_iff_between (hw : 0 < w) (hle : lo.toNat ≤ hi.toNat) :
    Arc.Mem lo.toNat (hi + 1).toNat v.toNat ↔ Between lo hi v := by
  have hsucc := toNat_add_one_cases hw hi
  unfold Arc.Mem Between
  omega

theorem arc_iff_sbetween (hw : 0 < w) (hle : lo.toInt ≤ hi.toInt) :
    Arc.Mem lo.toNat (hi + 1).toNat v.toNat ↔ SBetween lo hi v := by
  have hsucc := toNat_add_one_cases hw hi
  have hlo := toInt_sign_cases lo
  have hhi := toInt_sign_cases hi
  have hv := toInt_sign_cases v
  unfold Arc.Mem SBetween
  omega

theorem between_of_eq (hw : 0 < w) (hle : lo.toNat ≤ hi.toNat) (heq : lo = hi + 1) :
    Between lo hi v := by
  have hdiff : lo.toNat = (hi + 1).toNat := congrArg BitVec.toNat heq
  have hsucc := toNat_add_one_cases hw hi
  unfold Between
  omega

theorem sbetween_of_eq (hw : 0 < w) (hle : lo.toInt ≤ hi.toInt) (heq : lo = hi + 1) :
    SBetween lo hi v := by
  have hdiff : lo.toNat = (hi + 1).toNat := congrArg BitVec.toNat heq
  have hsucc := toNat_add_one_cases hw hi
  have hlo := toInt_sign_cases lo
  have hhi := toInt_sign_cases hi
  have hv := toInt_sign_cases v
  unfold SBetween
  omega

theorem mem_getNonEmpty_iff (hle : lo.toNat ≤ hi.toNat) :
    v ∈ getNonEmpty lo (hi + 1) ↔ Between lo hi v := by
  rcases Nat.eq_zero_or_pos w with rfl | hw
  · rw [Subsingleton.elim lo v, Subsingleton.elim hi v]
    exact iff_of_true (mem_of_width_zero rfl) ⟨Nat.le_refl _, Nat.le_refl _⟩
  · unfold getNonEmpty
    split
    · next heq => exact iff_of_true (mem_getFull v) (between_of_eq hw hle heq)
    · next hne => exact (mem_iff hne).trans (arc_iff_between hw hle)

theorem mem_getNonEmpty_iff_signed (hle : lo.toInt ≤ hi.toInt) :
    v ∈ getNonEmpty lo (hi + 1) ↔ SBetween lo hi v := by
  rcases Nat.eq_zero_or_pos w with rfl | hw
  · rw [Subsingleton.elim lo v, Subsingleton.elim hi v]
    exact iff_of_true (mem_of_width_zero rfl) ⟨Int.le_refl _, Int.le_refl _⟩
  · unfold getNonEmpty
    split
    · next heq => exact iff_of_true (mem_getFull v) (sbetween_of_eq hw hle heq)
    · next hne => exact (mem_iff hne).trans (arc_iff_sbetween hw hle)

theorem mem_getNonEmpty (hlo : lo.toNat ≤ v.toNat) (hhi : v.toNat ≤ hi.toNat) :
    v ∈ getNonEmpty lo (hi + 1) :=
  (mem_getNonEmpty_iff (Nat.le_trans hlo hhi)).mpr ⟨hlo, hhi⟩

theorem mem_getNonEmpty_signed (hlo : lo.toInt ≤ v.toInt) (hhi : v.toInt ≤ hi.toInt) :
    v ∈ getNonEmpty lo (hi + 1) :=
  (mem_getNonEmpty_iff_signed (Int.le_trans hlo hhi)).mpr ⟨hlo, hhi⟩

theorem ofBounds_between (hle : lo.toNat ≤ hi.toNat) (hne : lo ≠ hi + 1) :
    ∃ Res, ofBounds lo (hi + 1) = some Res ∧ ∀ v, v ∈ Res ↔ Between lo hi v :=
  ⟨_, ofBounds_of_ne hne,
    fun _ => (mem_iff hne).trans (arc_iff_between (width_pos hne) hle)⟩

theorem ofBounds_sbetween (hle : lo.toInt ≤ hi.toInt) (hne : lo ≠ hi + 1) :
    ∃ Res, ofBounds lo (hi + 1) = some Res ∧ ∀ v, v ∈ Res ↔ SBetween lo hi v :=
  ⟨_, ofBounds_of_ne hne,
    fun _ => (mem_iff hne).trans (arc_iff_sbetween (width_pos hne) hle)⟩

end SmlnjLlvm.ConstantRange
