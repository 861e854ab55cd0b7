import SmlnjLlvm.IR.ConstantRange
import SmlnjLlvm.Library.Arc
import Mathlib.Data.Set.Card

/-!
# Ranges as sets

The elements of a range are an arc of the circle of words. The result of an
intersection or a union is described as a hull of the set that is meant.
-/

namespace SmlnjLlvm.ConstantRange

variable {w : Nat} {R CR L' : ConstantRange w} {L U v : BitVec w}

instance : Membership (BitVec w) (ConstantRange w) := ⟨fun R v => R.contains v = true⟩

theorem mem_def : v ∈ R ↔ R.contains v = true := Iff.rfl

theorem eq_cases (R : ConstantRange w) : R = getFull ∨ R = getEmpty ∨ R.Lower ≠ R.Upper := by
  by_cases h : R.Lower = R.Upper
  · obtain ⟨Lower, Upper, bounds⟩ := R
    dsimp only at h
    subst h
    rcases bounds rfl with rfl | rfl
    · exact Or.inl rfl
    · exact Or.inr (Or.inl rfl)
  · exact Or.inr (Or.inr h)

theorem isFullSet_getFull : (getFull : ConstantRange w).isFullSet = true := by
  simp [isFullSet, getFull, ofFull]

theorem isEmptySet_getEmpty : (getEmpty : ConstantRange w).isEmptySet = true := by
  simp [isEmptySet, getEmpty, ofFull]

theorem isFullSet_of_ne (h : R.Lower ≠ R.Upper) : R.isFullSet = false := by
  simp [isFullSet, h]

theorem isEmptySet_of_ne (h : R.Lower ≠ R.Upper) : R.isEmptySet = false := by
  simp [isEmptySet, h]

theorem isFullSet_iff : R.isFullSet = true ↔ R = getFull := by
  constructor
  · intro h
    unfold isFullSet at h
    rw [Bool.and_eq_true, decide_eq_true_iff, decide_eq_true_iff] at h
    obtain ⟨Lower, Upper, bounds⟩ := R
    dsimp only at h
    obtain ⟨hupper, hlower⟩ := h
    subst hupper
    subst hlower
    rfl
  · rintro rfl
    exact isFullSet_getFull

theorem isEmptySet_iff : R.isEmptySet = true ↔ R = getEmpty := by
  constructor
  · intro h
    unfold isEmptySet at h
    rw [Bool.and_eq_true, decide_eq_true_iff, decide_eq_true_iff] at h
    obtain ⟨Lower, Upper, bounds⟩ := R
    dsimp only at h
    obtain ⟨hupper, hlower⟩ := h
    subst hupper
    subst hlower
    rfl
  · rintro rfl
    exact isEmptySet_getEmpty

theorem mem_getFull (v : BitVec w) : v ∈ (getFull : ConstantRange w) := by
  rw [mem_def, contains, if_pos]
  · exact isFullSet_getFull
  · simp [getFull, ofFull]

theorem allOnes_ne_zero (hw : 0 < w) : BitVec.allOnes w ≠ 0 := by
  intro h
  have hnat := congrArg BitVec.toNat h
  have hpow := Nat.one_lt_two_pow (Nat.ne_of_gt hw)
  simp at hnat
  omega

theorem not_mem_getEmpty (hw : 0 < w) (v : BitVec w) : v ∉ (getEmpty : ConstantRange w) := by
  intro h
  rw [mem_def, contains, if_pos (by simp [getEmpty, ofFull])] at h
  unfold isFullSet getEmpty ofFull at h
  rw [Bool.and_eq_true, decide_eq_true_iff, decide_eq_true_iff] at h
  exact allOnes_ne_zero hw h.2.symm

theorem mem_iff (h : R.Lower ≠ R.Upper) :
    v ∈ R ↔ Arc.Mem R.Lower.toNat R.Upper.toNat v.toNat := by
  have hne : R.Lower.toNat ≠ R.Upper.toNat := fun heq => h (BitVec.eq_of_toNat_eq heq)
  rw [mem_def, contains, if_neg h, isUpperWrapped, BitVec.ult, BitVec.ule, BitVec.ult]
  unfold Arc.Mem
  by_cases hwrap : R.Upper.toNat < R.Lower.toNat
  · simp only [hwrap, decide_true, Bool.not_true, Bool.false_eq_true, if_false, Bool.or_eq_true,
      decide_eq_true_iff]
    omega
  · simp only [hwrap, decide_false, Bool.not_false, if_true, Bool.and_eq_true, decide_eq_true_iff]
    omega

theorem isFullSet_of_width_zero (hw : w = 0) : R.isFullSet = true := by
  subst hw
  have hall : ∀ x y : BitVec 0, x = y := fun x y => Subsingleton.elim x y
  rw [isFullSet, decide_eq_true (hall _ _), decide_eq_true (hall _ _)]
  rfl

theorem isEmptySet_of_width_zero (hw : w = 0) : R.isEmptySet = true := by
  subst hw
  have hall : ∀ x y : BitVec 0, x = y := fun x y => Subsingleton.elim x y
  rw [isEmptySet, decide_eq_true (hall _ _), decide_eq_true (hall _ _)]
  rfl

theorem eq_of_width_zero (hw : w = 0) (R CR : ConstantRange w) : R = CR :=
  (isFullSet_iff.mp (isFullSet_of_width_zero hw)).trans
    (isFullSet_iff.mp (isFullSet_of_width_zero hw)).symm

theorem mem_of_width_zero (hw : w = 0) : v ∈ R := by
  rw [eq_of_width_zero hw R getFull]
  exact mem_getFull v

theorem width_pos (h : L ≠ U) : 0 < w := BitVec.length_pos_of_ne h

theorem ofBounds_of_ne (h : L ≠ U) :
    ofBounds L U = some ⟨L, U, fun heq => absurd heq h⟩ := dif_pos fun heq => absurd heq h

theorem Lower_mem (h : R.Lower ≠ R.Upper) : R.Lower ∈ R :=
  (mem_iff h).mpr (Arc.mem_left _ _)

theorem Upper_not_mem (h : R.Lower ≠ R.Upper) : R.Upper ∉ R := by
  rw [mem_iff h]
  exact Arc.not_mem_right fun heq => h (BitVec.eq_of_toNat_eq heq)

theorem ext_mem (hw : 0 < w) (h : ∀ v, v ∈ R ↔ v ∈ CR) : R = CR := by
  rcases eq_cases R with rfl | rfl | hR
  · rcases eq_cases CR with rfl | rfl | hCR
    · rfl
    · exact absurd ((h 0).mp (mem_getFull 0)) (not_mem_getEmpty hw 0)
    · exact absurd ((h CR.Upper).mp (mem_getFull _)) (Upper_not_mem hCR)
  · rcases eq_cases CR with rfl | rfl | hCR
    · exact absurd ((h 0).mpr (mem_getFull 0)) (not_mem_getEmpty hw 0)
    · rfl
    · exact absurd ((h CR.Lower).mpr (Lower_mem hCR)) (not_mem_getEmpty hw _)
  · rcases eq_cases CR with rfl | rfl | hCR
    · exact absurd ((h R.Upper).mpr (mem_getFull _)) (Upper_not_mem hR)
    · exact absurd ((h R.Lower).mp (Lower_mem hR)) (not_mem_getEmpty hw _)
    · have harc : ∀ x < 2 ^ w, Arc.Mem R.Lower.toNat R.Upper.toNat x ↔
          Arc.Mem CR.Lower.toNat CR.Upper.toNat x := by
        intro x hx
        have hv := h (BitVec.ofNat w x)
        rw [mem_iff hR, mem_iff hCR, BitVec.toNat_ofNat, Nat.mod_eq_of_lt hx] at hv
        exact hv
      obtain ⟨hlower, hupper⟩ := Arc.unique R.Lower.isLt R.Upper.isLt CR.Lower.isLt CR.Upper.isLt
        (fun heq => hR (BitVec.eq_of_toNat_eq heq)) (fun heq => hCR (BitVec.eq_of_toNat_eq heq)) harc
      obtain ⟨Lower, Upper, bounds⟩ := R
      obtain ⟨Lower', Upper', bounds'⟩ := CR
      obtain rfl : Lower = Lower' := BitVec.eq_of_toNat_eq hlower
      obtain rfl : Upper = Upper' := BitVec.eq_of_toNat_eq hupper
      rfl

theorem mem_inverse_iff (hw : 0 < w) : v ∈ R.inverse ↔ v ∉ R := by
  have hdiff : (getEmpty : ConstantRange w).isFullSet = false := by
    simp only [isFullSet, getEmpty, ofFull, Bool.false_eq_true, if_false, decide_true,
      Bool.true_and, decide_eq_false_iff_not]
    exact (allOnes_ne_zero hw).symm
  rcases eq_cases R with rfl | rfl | hR
  · rw [inverse, if_pos isFullSet_getFull]
    exact iff_of_false (not_mem_getEmpty hw v) (not_not_intro (mem_getFull v))
  · rw [inverse, hdiff, if_neg Bool.false_ne_true, if_pos isEmptySet_getEmpty]
    exact iff_of_true (mem_getFull v) (not_mem_getEmpty hw v)
  · rw [inverse, isFullSet_of_ne hR, isEmptySet_of_ne hR, if_neg Bool.false_ne_true,
      if_neg Bool.false_ne_true, mem_iff hR, mem_iff hR.symm]
    exact Arc.mem_swap_iff fun heq => hR (BitVec.eq_of_toNat_eq heq)

def elements (R : ConstantRange w) : Set (BitVec w) := {v | v ∈ R}

instance : Finite (BitVec w) := Finite.of_injective BitVec.toFin fun _ _ => BitVec.eq_of_toFin_eq

theorem ncard_le_of_subset (h : ∀ v, v ∈ R → v ∈ CR) : R.elements.ncard ≤ CR.elements.ncard :=
  Set.ncard_le_ncard h (Set.toFinite _)

theorem ncard_elements (h : R.Lower ≠ R.Upper) :
    R.elements.ncard = (R.Upper - R.Lower).toNat := by
  have himage : BitVec.toNat '' R.elements =
      (Arc.points (2 ^ w) R.Lower.toNat R.Upper.toNat : Set Nat) := by
    ext x
    simp only [Set.mem_image, Arc.points, Finset.coe_filter, Finset.mem_range, Set.mem_ofPred_eq]
    constructor
    · rintro ⟨v, hv, rfl⟩
      exact ⟨v.isLt, (mem_iff h).mp hv⟩
    · rintro ⟨hx, hmem⟩
      have hval : (BitVec.ofNat w x).toNat = x := by rw [BitVec.toNat_ofNat, Nat.mod_eq_of_lt hx]
      refine ⟨BitVec.ofNat w x, (mem_iff h).mpr ?_, hval⟩
      rw [hval]
      exact hmem
  have hinj : Function.Injective (BitVec.toNat (w := w)) := fun _ _ => BitVec.eq_of_toNat_eq
  rw [← Set.ncard_image_of_injective _ hinj, himage, Set.ncard_coe_finset,
    Arc.card_points R.Lower.isLt R.Upper.isLt fun heq => h (BitVec.eq_of_toNat_eq heq),
    BitVec.toNat_sub]

theorem ncard_of_not_full (h : R.isFullSet = false) :
    R.elements.ncard = (R.Upper - R.Lower).toNat := by
  rcases eq_cases R with rfl | rfl | hR
  · rw [isFullSet_getFull] at h
    cases h
  · have hw : 0 < w := by
      by_contra hzero
      obtain rfl : w = 0 := Nat.eq_zero_of_not_pos hzero
      exact absurd h (by decide)
    have hnone : (getEmpty : ConstantRange w).elements = ∅ :=
      Set.eq_empty_of_forall_notMem (not_mem_getEmpty hw)
    rw [hnone, Set.ncard_empty]
    simp [getEmpty, ofFull]
  · exact ncard_elements hR

theorem isSizeStrictlySmallerThan_iff (hR : R.Lower ≠ R.Upper) (hCR : CR.Lower ≠ CR.Upper) :
    R.isSizeStrictlySmallerThan CR = true ↔
      (R.Upper - R.Lower).toNat < (CR.Upper - CR.Lower).toNat := by
  rw [isSizeStrictlySmallerThan, isFullSet_of_ne hR, isFullSet_of_ne hCR, if_neg Bool.false_ne_true,
    if_neg Bool.false_ne_true, BitVec.ult, decide_eq_true_iff]

theorem getSmallerRange_le (R CR : ConstantRange w) :
    (getSmallerRange R CR).elements.ncard ≤ R.elements.ncard ∧
      (getSmallerRange R CR).elements.ncard ≤ CR.elements.ncard := by
  have hfull : ∀ R : ConstantRange w,
      R.elements.ncard ≤ (getFull : ConstantRange w).elements.ncard :=
    fun R => ncard_le_of_subset fun v _ => mem_getFull v
  unfold getSmallerRange isSizeStrictlySmallerThan
  by_cases hR : R.isFullSet = true
  · rw [if_pos hR, if_neg Bool.false_ne_true]
    rw [isFullSet_iff] at hR
    exact ⟨hR ▸ hfull CR, Nat.le_refl _⟩
  · rw [if_neg hR]
    by_cases hCR : CR.isFullSet = true
    · rw [if_pos hCR, if_pos rfl]
      rw [isFullSet_iff] at hCR
      exact ⟨Nat.le_refl _, hCR ▸ hfull R⟩
    · have hsize := ncard_of_not_full (Bool.eq_false_iff.mpr hR)
      have hsize' := ncard_of_not_full (Bool.eq_false_iff.mpr hCR)
      rw [if_neg hCR, BitVec.ult]
      by_cases hlt : (R.Upper - R.Lower).toNat < (CR.Upper - CR.Lower).toNat
      · rw [if_pos (decide_eq_true hlt)]
        omega
      · rw [if_neg (by simpa using hlt)]
        omega

theorem getPreferredRange_eq (R CR : ConstantRange w) (PrefType : PreferredRangeType) :
    getPreferredRange R CR PrefType = R ∨ getPreferredRange R CR PrefType = CR := by
  have hsmaller : getSmallerRange R CR = R ∨ getSmallerRange R CR = CR := by
    unfold getSmallerRange
    split
    · exact Or.inl rfl
    · exact Or.inr rfl
  cases PrefType with
  | Smallest => exact hsmaller
  | Unsigned =>
    unfold getPreferredRange
    dsimp only
    split
    · exact Or.inl rfl
    · split
      · exact Or.inr rfl
      · exact hsmaller
  | Signed =>
    unfold getPreferredRange
    dsimp only
    split
    · exact Or.inl rfl
    · split
      · exact Or.inr rfl
      · exact hsmaller

/-- Some range has just these elements. -/
def Representable (S : Set (BitVec w)) : Prop := ∃ R : ConstantRange w, R.elements = S

/--
A range around a set: it is the set where a range can be, and no range around
the set is smaller when the smallest one is asked for.
-/
structure IsHull (S : Set (BitVec w)) (PrefType : PreferredRangeType) (R : ConstantRange w) :
    Prop where
  covers : S ⊆ R.elements
  exact : Representable S → R.elements = S
  smallest : PrefType = .Smallest → ∀ R' : ConstantRange w, S ⊆ R'.elements →
    R.elements.ncard ≤ R'.elements.ncard

variable {S : Set (BitVec w)} {PrefType : PreferredRangeType}

theorem IsHull.of_eq (h : R.elements = S) : IsHull S PrefType R := by
  refine ⟨h.symm.subset, fun _ => h, ?_⟩
  intro _ R' hR'
  exact ncard_le_of_subset fun v hv => hR' (h ▸ hv)

theorem IsHull.ofBounds (hne : L ≠ U) (h : ∀ v, Arc.Mem L.toNat U.toNat v.toNat ↔ v ∈ S) :
    ∃ R, ofBounds L U = some R ∧ IsHull S PrefType R := by
  refine ⟨_, ofBounds_of_ne hne, IsHull.of_eq ?_⟩
  ext v
  exact (mem_iff hne).trans (h v)

/--
The set is what two ranges have in common, in two pieces with a gap in each
range. A range around the set fills one of the gaps, and so contains one of the
two ranges.
-/
theorem IsHull.of_cyclic (hR : R.Lower ≠ R.Upper) (hCR : CR.Lower ≠ CR.Upper)
    (hcyclic : Arc.Cyclic R.Lower.toNat CR.Upper.toNat CR.Lower.toNat R.Upper.toNat)
    (hS : ∀ v, v ∈ S ↔ v ∈ R ∧ v ∈ CR) :
    IsHull S PrefType (getPreferredRange R CR PrefType) := by
  have hw : 0 < w := width_pos hR
  have hR_Lower : R.Lower ∈ S := by
    rw [hS, mem_iff hR, mem_iff hCR]
    unfold Arc.Cyclic at hcyclic
    unfold Arc.Mem
    omega
  have hCR_Lower : CR.Lower ∈ S := by
    rw [hS, mem_iff hR, mem_iff hCR]
    unfold Arc.Cyclic at hcyclic
    unfold Arc.Mem
    omega
  have hcover : ∀ R' : ConstantRange w, S ⊆ R'.elements →
      R.elements ⊆ R'.elements ∨ CR.elements ⊆ R'.elements := by
    intro R' hR'
    by_contra hneither
    rw [not_or, Set.not_subset, Set.not_subset] at hneither
    obtain ⟨⟨p, hpR, hp⟩, ⟨q, hqCR, hq⟩⟩ := hneither
    have hp_gap : p ∉ CR := fun hpCR => hp (hR' ((hS p).mpr ⟨hpR, hpCR⟩))
    have hq_gap : q ∉ R := fun hqR => hq (hR' ((hS q).mpr ⟨hqR, hqCR⟩))
    have hne : R'.Lower ≠ R'.Upper := by
      rcases eq_cases R' with rfl | rfl | hne
      · exact absurd (mem_getFull p) hp
      · exact absurd (hR' hR_Lower) (not_mem_getEmpty hw _)
      · exact hne
    have horder : Arc.Cyclic R.Lower.toNat p.toNat CR.Lower.toNat q.toNat := by
      rw [mem_iff hCR] at hp_gap
      rw [mem_iff hR] at hq_gap
      unfold Arc.Cyclic at hcyclic ⊢
      unfold Arc.Mem at hp_gap hq_gap
      omega
    rcases Arc.mem_or_mem_of_cyclic horder ((mem_iff hne).mp (hR' hR_Lower))
      ((mem_iff hne).mp (hR' hCR_Lower)) with hmem | hmem
    · exact hp ((mem_iff hne).mpr hmem)
    · exact hq ((mem_iff hne).mpr hmem)
  have hR_Upper : R.Upper ∈ CR := by
    rw [mem_iff hCR]
    unfold Arc.Cyclic at hcyclic
    unfold Arc.Mem
    omega
  have hCR_Upper : CR.Upper ∈ R := by
    rw [mem_iff hR]
    unfold Arc.Cyclic at hcyclic
    unfold Arc.Mem
    omega
  constructor
  · intro v hv
    rw [hS] at hv
    rcases getPreferredRange_eq R CR PrefType with heq | heq
    · rw [heq]
      exact hv.1
    · rw [heq]
      exact hv.2
  · rintro ⟨R', hR'⟩
    exfalso
    rcases hcover R' hR'.symm.subset with hsub | hsub
    · have hmem := hsub hCR_Upper
      rw [hR', hS] at hmem
      exact Upper_not_mem hCR hmem.2
    · have hmem := hsub hR_Upper
      rw [hR', hS] at hmem
      exact Upper_not_mem hR hmem.1
  · rintro rfl R' hR'
    have hsmaller := getSmallerRange_le R CR
    rcases hcover R' hR' with hsub | hsub
    · exact Nat.le_trans hsmaller.1 (ncard_le_of_subset hsub)
    · exact Nat.le_trans hsmaller.2 (ncard_le_of_subset hsub)

/-! ## Intersection -/

theorem toNat_ne (h : R.Lower ≠ R.Upper) : R.Lower.toNat ≠ R.Upper.toNat :=
  fun heq => h (BitVec.eq_of_toNat_eq heq)

theorem ne_of_toNat_ne (h : L.toNat ≠ U.toNat) : L ≠ U := fun heq => h (congrArg BitVec.toNat heq)

/--
How an intersection comes out: as the set, or, where the bounds alternate on the
circle, as the preferred operand.
-/
def Meets (R CR : ConstantRange w) (PrefType : PreferredRangeType) (Res : ConstantRange w) : Prop :=
  Res.elements = R.elements ∩ CR.elements ∨
    Arc.Cyclic R.Lower.toNat CR.Upper.toNat CR.Lower.toNat R.Upper.toNat ∧
      Res = getPreferredRange R CR PrefType

theorem intersectOrdered_meets (hR : R.Lower ≠ R.Upper) (hCR : CR.Lower ≠ CR.Upper)
    (hwrap : R.isUpperWrapped = true ∨ CR.isUpperWrapped = false) (PrefType : PreferredRangeType) :
    ∃ Res, intersectOrdered R CR PrefType = some Res ∧ Meets R CR PrefType Res := by
  have hw : 0 < w := width_pos hR
  have hne := toNat_ne hR
  have hne' := toNat_ne hCR
  have hmem : ∀ v, v ∈ R.elements ∩ CR.elements ↔
      Arc.Mem R.Lower.toNat R.Upper.toNat v.toNat ∧
        Arc.Mem CR.Lower.toNat CR.Upper.toNat v.toNat :=
    fun v => and_congr (mem_iff hR) (mem_iff hCR)
  -- The results of the branches, by what they claim of the numbers.
  have hbounds : ∀ L U : BitVec w, L.toNat ≠ U.toNat →
      (∀ x, Arc.Mem L.toNat U.toNat x ↔ Arc.Mem R.Lower.toNat R.Upper.toNat x ∧
        Arc.Mem CR.Lower.toNat CR.Upper.toNat x) →
      ∃ Res, ofBounds L U = some Res ∧ Meets R CR PrefType Res := by
    intro L U hLU harc
    refine ⟨_, ofBounds_of_ne (ne_of_toNat_ne hLU), Or.inl ?_⟩
    ext v
    exact (mem_iff (ne_of_toNat_ne hLU)).trans ((harc v.toNat).trans (hmem v).symm)
  have hempty : (∀ x, Arc.Mem R.Lower.toNat R.Upper.toNat x →
      ¬Arc.Mem CR.Lower.toNat CR.Upper.toNat x) →
      ∃ Res, some getEmpty = some Res ∧ Meets R CR PrefType Res := by
    intro harc
    refine ⟨_, rfl, Or.inl ?_⟩
    ext v
    refine iff_of_false (not_mem_getEmpty hw v) ?_
    rw [hmem]
    exact fun h => harc _ h.1 h.2
  have hleft : (∀ x, Arc.Mem R.Lower.toNat R.Upper.toNat x →
      Arc.Mem CR.Lower.toNat CR.Upper.toNat x) →
      ∃ Res, some R = some Res ∧ Meets R CR PrefType Res := by
    intro harc
    refine ⟨_, rfl, Or.inl (Set.inter_eq_left.mpr ?_).symm⟩
    exact fun v hv => (mem_iff hCR).mpr (harc _ ((mem_iff hR).mp hv))
  have hright : (∀ x, Arc.Mem CR.Lower.toNat CR.Upper.toNat x →
      Arc.Mem R.Lower.toNat R.Upper.toNat x) →
      ∃ Res, some CR = some Res ∧ Meets R CR PrefType Res := by
    intro harc
    refine ⟨_, rfl, Or.inl (Set.inter_eq_right.mpr ?_).symm⟩
    exact fun v hv => (mem_iff hR).mpr (harc _ ((mem_iff hCR).mp hv))
  have hpreferred :
      Arc.Cyclic R.Lower.toNat CR.Upper.toNat CR.Lower.toNat R.Upper.toNat →
      ∃ Res, some (getPreferredRange R CR PrefType) = some Res ∧ Meets R CR PrefType Res :=
    fun hcyclic => ⟨_, rfl, Or.inr ⟨hcyclic, rfl⟩⟩
  unfold intersectOrdered
  simp only [isUpperWrapped, BitVec.ult, BitVec.ule, Bool.and_eq_true, Bool.not_eq_true',
    decide_eq_true_iff, decide_eq_false_iff_not] at hwrap ⊢
  unfold Arc.Mem at hbounds hempty hleft hright
  unfold Arc.Cyclic at hpreferred
  split_ifs with hflat hlow hapart hover hinside happart hR' hlow hinside' hover' hmiddle happart'
    hupper hcross hlower hupper' hlower'
  · exact hempty fun x => by omega
  · exact hbounds _ _ (by omega) fun x => by omega
  · exact hright fun x => by omega
  · exact hleft fun x => by omega
  · exact hbounds _ _ (by omega) fun x => by omega
  · exact hempty fun x => by omega
  · exact hright fun x => by omega
  · exact hbounds _ _ (by omega) fun x => by omega
  · exact hpreferred (by omega)
  · exact hempty fun x => by omega
  · exact hbounds _ _ (by omega) fun x => by omega
  · exact hright fun x => by omega
  · exact hpreferred (by omega)
  · exact hbounds _ _ (by omega) fun x => by omega
  · exact hright fun x => by omega
  · exact hleft fun x => by omega
  · exact hbounds _ _ (by omega) fun x => by omega
  · exact hpreferred (by omega)

theorem elements_getFull : (getFull : ConstantRange w).elements = Set.univ :=
  Set.eq_univ_of_forall mem_getFull

theorem elements_getEmpty (hw : 0 < w) : (getEmpty : ConstantRange w).elements = ∅ :=
  Set.eq_empty_of_forall_notMem (not_mem_getEmpty hw)

theorem elements_of_width_zero (hw : w = 0) (S : Set (BitVec w)) (hS : S.Nonempty) :
    R.elements = S := by
  subst hw
  obtain ⟨v, hv⟩ := hS
  ext x
  obtain rfl : x = v := Subsingleton.elim x v
  exact iff_of_true (mem_of_width_zero rfl) hv

theorem isEmptySet_getFull (hw : 0 < w) : (getFull : ConstantRange w).isEmptySet = false := by
  rw [Bool.eq_false_iff, Ne, isEmptySet_iff]
  intro h
  exact not_mem_getEmpty hw 0 (h ▸ mem_getFull 0)

theorem ne_of_not_full_empty (hfull : R ≠ getFull) (hempty : R ≠ getEmpty) :
    R.Lower ≠ R.Upper := by
  rcases eq_cases R with h | h | h
  · exact absurd h hfull
  · exact absurd h hempty
  · exact h

theorem wrapped_of_not_swap (h : ¬(!R.isUpperWrapped && CR.isUpperWrapped) = true) :
    R.isUpperWrapped = true ∨ CR.isUpperWrapped = false := by
  cases hwrap : R.isUpperWrapped with
  | true => exact Or.inl rfl
  | false =>
    rw [hwrap, Bool.not_false, Bool.true_and, Bool.not_eq_true] at h
    exact Or.inr h

theorem Meets.hull (hR : R.Lower ≠ R.Upper) (hCR : CR.Lower ≠ CR.Upper) {Res : ConstantRange w}
    (h : Meets R CR PrefType Res) : IsHull (R.elements ∩ CR.elements) PrefType Res := by
  rcases h with heq | ⟨hcyclic, rfl⟩
  · exact IsHull.of_eq heq
  · exact IsHull.of_cyclic hR hCR hcyclic fun v => Iff.rfl

theorem intersectWith_meets (R CR : ConstantRange w) (PrefType : PreferredRangeType) :
    ∃ Res, R.intersectWith CR PrefType = some Res ∧
      (Res.elements = R.elements ∩ CR.elements ∨
        R.Lower ≠ R.Upper ∧ CR.Lower ≠ CR.Upper ∧
          (Meets R CR PrefType Res ∨ Meets CR R PrefType Res)) := by
  rcases Nat.eq_zero_or_pos w with hzero | hw
  · rw [intersectWith, isEmptySet_of_width_zero hzero, Bool.true_or, if_pos rfl]
    refine ⟨R, rfl, Or.inl (elements_of_width_zero hzero _ ?_)⟩
    exact ⟨0, mem_of_width_zero hzero, mem_of_width_zero hzero⟩
  · unfold intersectWith
    by_cases hfirst : (R.isEmptySet || CR.isFullSet) = true
    · rw [if_pos hfirst]
      refine ⟨R, rfl, Or.inl ?_⟩
      rw [Bool.or_eq_true, isEmptySet_iff, isFullSet_iff] at hfirst
      rcases hfirst with rfl | rfl
      · rw [elements_getEmpty hw, Set.empty_inter]
      · rw [elements_getFull, Set.inter_univ]
    · rw [if_neg hfirst]
      by_cases hsecond : (CR.isEmptySet || R.isFullSet) = true
      · rw [if_pos hsecond]
        refine ⟨CR, rfl, Or.inl ?_⟩
        rw [Bool.or_eq_true, isEmptySet_iff, isFullSet_iff] at hsecond
        rcases hsecond with rfl | rfl
        · rw [elements_getEmpty hw, Set.inter_empty]
        · rw [elements_getFull, Set.univ_inter]
      · rw [if_neg hsecond]
        rw [Bool.or_eq_true, isEmptySet_iff, isFullSet_iff, not_or] at hfirst hsecond
        have hR : R.Lower ≠ R.Upper := ne_of_not_full_empty hsecond.2 hfirst.1
        have hCR : CR.Lower ≠ CR.Upper := ne_of_not_full_empty hfirst.2 hsecond.1
        by_cases hswap : (!R.isUpperWrapped && CR.isUpperWrapped) = true
        · rw [if_pos hswap]
          rw [Bool.and_eq_true] at hswap
          obtain ⟨Res, hRes, hmeets⟩ := intersectOrdered_meets hCR hR (Or.inl hswap.2) PrefType
          exact ⟨Res, hRes, Or.inr ⟨hR, hCR, Or.inr hmeets⟩⟩
        · rw [if_neg hswap]
          obtain ⟨Res, hRes, hmeets⟩ :=
            intersectOrdered_meets hR hCR (wrapped_of_not_swap hswap) PrefType
          exact ⟨Res, hRes, Or.inr ⟨hR, hCR, Or.inl hmeets⟩⟩

theorem intersectWith_hull (R CR : ConstantRange w) (PrefType : PreferredRangeType) :
    ∃ Res, R.intersectWith CR PrefType = some Res ∧
      IsHull (R.elements ∩ CR.elements) PrefType Res := by
  obtain ⟨Res, hRes, heq | ⟨hR, hCR, hmeets | hmeets⟩⟩ := intersectWith_meets R CR PrefType
  · exact ⟨Res, hRes, IsHull.of_eq heq⟩
  · exact ⟨Res, hRes, hmeets.hull hR hCR⟩
  · rw [Set.inter_comm]
    exact ⟨Res, hRes, hmeets.hull hCR hR⟩

/--
The smallest range around an intersection with a range of at most half the words
is the intersection or that range.
-/
theorem intersectWith_half (R : ConstantRange w) (hCR : 2 * CR.elements.ncard ≤ 2 ^ w) :
    ∃ Res, R.intersectWith CR .Smallest = some Res ∧
      (Res.elements = R.elements ∩ CR.elements ∨
        R.Lower ≠ R.Upper ∧ CR.Lower ≠ CR.Upper ∧
          Arc.Cyclic R.Lower.toNat CR.Upper.toNat CR.Lower.toNat R.Upper.toNat ∧ Res = CR) := by
  obtain ⟨Res, hRes, hmeets⟩ := intersectWith_meets R CR .Smallest
  refine ⟨Res, hRes, ?_⟩
  rcases hmeets with heq | ⟨hR, hCR_ne, hmeets⟩
  · exact Or.inl heq
  · -- Where the bounds alternate, the other operand is the larger one.
    have hlarger : Arc.Cyclic R.Lower.toNat CR.Upper.toNat CR.Lower.toNat R.Upper.toNat →
        (CR.Upper - CR.Lower).toNat < (R.Upper - R.Lower).toNat := by
      intro hcyclic
      rw [ncard_elements hCR_ne] at hCR
      have hsize := Words.toNat_sub_cases CR.Upper CR.Lower
      have hsize' := Words.toNat_sub_cases R.Upper R.Lower
      unfold Arc.Cyclic at hcyclic
      omega
    rcases hmeets with (heq | ⟨hcyclic, rfl⟩) | (heq | ⟨hcyclic, rfl⟩)
    · exact Or.inl heq
    · have hnot : ¬R.isSizeStrictlySmallerThan CR = true := by
        rw [isSizeStrictlySmallerThan_iff hR hCR_ne]
        exact Nat.not_lt.mpr (Nat.le_of_lt (hlarger hcyclic))
      exact Or.inr ⟨hR, hCR_ne, hcyclic, if_neg hnot⟩
    · rw [Set.inter_comm]
      exact Or.inl heq
    · have hsmaller : CR.isSizeStrictlySmallerThan R = true :=
        (isSizeStrictlySmallerThan_iff hCR_ne hR).mpr (hlarger hcyclic.rotate)
      exact Or.inr ⟨hR, hCR_ne, hcyclic.rotate, if_pos hsmaller⟩

/-! ## Union -/

theorem unionOrdered_spec (hR : R.Lower ≠ R.Upper) (hCR : CR.Lower ≠ CR.Upper)
    (hwrap : R.isUpperWrapped = true ∨ CR.isUpperWrapped = false) (PrefType : PreferredRangeType) :
    ∃ Res, unionOrdered R CR PrefType = some Res ∧
      IsHull (R.elements ∪ CR.elements) PrefType Res := by
  have hw : 0 < w := width_pos hR
  have hne := toNat_ne hR
  have hne' := toNat_ne hCR
  have hmem : ∀ v, v ∈ R.elements ∪ CR.elements ↔
      Arc.Mem R.Lower.toNat R.Upper.toNat v.toNat ∨
        Arc.Mem CR.Lower.toNat CR.Upper.toNat v.toNat :=
    fun v => or_congr (mem_iff hR) (mem_iff hCR)
  have hbounds : ∀ L U : BitVec w, L.toNat ≠ U.toNat →
      (∀ x, x < 2 ^ w → (Arc.Mem L.toNat U.toNat x ↔ Arc.Mem R.Lower.toNat R.Upper.toNat x ∨
        Arc.Mem CR.Lower.toNat CR.Upper.toNat x)) →
      ∃ Res, ofBounds L U = some Res ∧ IsHull (R.elements ∪ CR.elements) PrefType Res := by
    intro L U hLU harc
    exact IsHull.ofBounds (ne_of_toNat_ne hLU) fun v => (harc v.toNat v.isLt).trans (hmem v).symm
  have hfull : (∀ x, x < 2 ^ w → Arc.Mem R.Lower.toNat R.Upper.toNat x ∨
      Arc.Mem CR.Lower.toNat CR.Upper.toNat x) →
      ∃ Res, some getFull = some Res ∧ IsHull (R.elements ∪ CR.elements) PrefType Res := by
    intro harc
    refine ⟨_, rfl, IsHull.of_eq ?_⟩
    rw [elements_getFull]
    exact (Set.eq_univ_of_forall fun v => (hmem v).mpr (harc _ v.isLt)).symm
  have hleft : (∀ x, Arc.Mem CR.Lower.toNat CR.Upper.toNat x →
      Arc.Mem R.Lower.toNat R.Upper.toNat x) →
      ∃ Res, some R = some Res ∧ IsHull (R.elements ∪ CR.elements) PrefType Res := by
    intro harc
    refine ⟨_, rfl, IsHull.of_eq (Set.union_eq_left.mpr ?_).symm⟩
    exact fun v hv => (mem_iff hR).mpr (harc _ ((mem_iff hCR).mp hv))
  have hpreferred :
      Arc.Cyclic R.Lower.toNat R.Upper.toNat CR.Lower.toNat CR.Upper.toNat →
      ∃ Res, (do
          let CR1 ← ofBounds R.Lower CR.Upper
          let CR2 ← ofBounds CR.Lower R.Upper
          some (getPreferredRange CR1 CR2 PrefType)) = some Res ∧
        IsHull (R.elements ∪ CR.elements) PrefType Res := by
    intro hcyclic
    have h1 : R.Lower ≠ CR.Upper := by
      apply ne_of_toNat_ne
      unfold Arc.Cyclic at hcyclic
      omega
    have h2 : CR.Lower ≠ R.Upper := by
      apply ne_of_toNat_ne
      unfold Arc.Cyclic at hcyclic
      omega
    rw [ofBounds_of_ne h1, ofBounds_of_ne h2]
    refine ⟨_, rfl, IsHull.of_cyclic h1 h2 hcyclic ?_⟩
    intro v
    rw [hmem, mem_iff h1, mem_iff h2]
    unfold Arc.Cyclic at hcyclic
    unfold Arc.Mem
    dsimp only
    omega
  have hpred : ∀ R : ConstantRange w, R.Lower.toNat < R.Upper.toNat →
      (R.Upper - 1).toNat = R.Upper.toNat - 1 := by
    intro R hlt
    rw [Words.toNat_sub_of_le, Words.toNat_one hw]
    rw [Words.toNat_one hw]
    omega
  unfold unionOrdered
  simp only [isUpperWrapped, BitVec.ult, BitVec.ule, Bool.and_eq_true, Bool.or_eq_true,
    Bool.not_eq_true', decide_eq_true_iff, decide_eq_false_iff_not] at hwrap ⊢
  unfold Arc.Mem at hbounds hfull hleft
  unfold Arc.Cyclic at hpreferred
  by_cases hflat : ¬R.Upper.toNat < R.Lower.toNat ∧ ¬CR.Upper.toNat < CR.Lower.toNat
  · rw [if_pos hflat]
    have hzero : ∀ U : BitVec w, U = R.Upper ∨ U = CR.Upper → U ≠ 0 := by
      rintro U hU rfl
      rcases hU with hU | hU
      · have hnat := congrArg BitVec.toNat hU
        simp at hnat
        omega
      · have hnat := congrArg BitVec.toNat hU
        simp at hnat
        omega
    rw [hpred R (by omega), hpred CR (by omega)]
    by_cases hapart : CR.Upper.toNat < R.Lower.toNat ∨ R.Upper.toNat < CR.Lower.toNat
    · rw [if_pos hapart]
      exact hpreferred (by omega)
    · have hnot : ¬((if CR.Lower.toNat < R.Lower.toNat then CR.Lower else R.Lower) = 0 ∧
          (if R.Upper.toNat - 1 < CR.Upper.toNat - 1 then CR.Upper else R.Upper) = 0) := by
        rintro ⟨-, hU⟩
        split at hU
        · exact hzero _ (Or.inr rfl) hU
        · exact hzero _ (Or.inl rfl) hU
      rw [if_neg hapart, if_neg hnot]
      split_ifs with hlower hupper hupper
      · exact hbounds _ _ (by omega) fun x hx => by omega
      · exact hbounds _ _ (by omega) fun x hx => by omega
      · exact hbounds _ _ (by omega) fun x hx => by omega
      · exact hbounds _ _ (by omega) fun x hx => by omega
  · rw [if_neg hflat]
    by_cases hlow : ¬CR.Upper.toNat < CR.Lower.toNat
    · rw [if_pos hlow]
      split_ifs with hinside hall hmiddle hupper
      · exact hleft fun x => by omega
      · exact hfull fun x hx => by omega
      · exact hpreferred (by omega)
      · exact hbounds _ _ (by omega) fun x hx => by omega
      · have hguard : CR.Lower.toNat ≤ R.Upper.toNat ∧ CR.Upper.toNat < R.Lower.toNat := by omega
        simp only [guard, if_pos hguard]
        exact hbounds _ _ (by omega) fun x hx => by omega
    · rw [if_neg hlow]
      split_ifs with hall hlower hupper hupper
      · exact hfull fun x hx => by omega
      · exact hbounds _ _ (by omega) fun x hx => by omega
      · exact hbounds _ _ (by omega) fun x hx => by omega
      · exact hbounds _ _ (by omega) fun x hx => by omega
      · exact hbounds _ _ (by omega) fun x hx => by omega

theorem unionWith_hull (R CR : ConstantRange w) (PrefType : PreferredRangeType) :
    ∃ Res, R.unionWith CR PrefType = some Res ∧
      IsHull (R.elements ∪ CR.elements) PrefType Res := by
  rcases Nat.eq_zero_or_pos w with hzero | hw
  · rw [unionWith, isFullSet_of_width_zero hzero, Bool.true_or, if_pos rfl]
    refine ⟨R, rfl, IsHull.of_eq (elements_of_width_zero hzero _ ?_)⟩
    exact ⟨0, Or.inl (mem_of_width_zero hzero)⟩
  · unfold unionWith
    by_cases hfirst : (R.isFullSet || CR.isEmptySet) = true
    · rw [if_pos hfirst]
      refine ⟨R, rfl, IsHull.of_eq ?_⟩
      rw [Bool.or_eq_true, isEmptySet_iff, isFullSet_iff] at hfirst
      rcases hfirst with rfl | rfl
      · rw [elements_getFull, Set.univ_union]
      · rw [elements_getEmpty hw, Set.union_empty]
    · rw [if_neg hfirst]
      by_cases hsecond : (CR.isFullSet || R.isEmptySet) = true
      · rw [if_pos hsecond]
        refine ⟨CR, rfl, IsHull.of_eq ?_⟩
        rw [Bool.or_eq_true, isEmptySet_iff, isFullSet_iff] at hsecond
        rcases hsecond with rfl | rfl
        · rw [elements_getFull, Set.union_univ]
        · rw [elements_getEmpty hw, Set.empty_union]
      · rw [if_neg hsecond]
        rw [Bool.or_eq_true, isEmptySet_iff, isFullSet_iff, not_or] at hfirst hsecond
        have hR : R.Lower ≠ R.Upper := ne_of_not_full_empty hfirst.1 hsecond.2
        have hCR : CR.Lower ≠ CR.Upper := ne_of_not_full_empty hsecond.1 hfirst.2
        by_cases hswap : (!R.isUpperWrapped && CR.isUpperWrapped) = true
        · rw [if_pos hswap, Set.union_comm]
          rw [Bool.and_eq_true] at hswap
          exact unionOrdered_spec hCR hR (Or.inl hswap.2) PrefType
        · rw [if_neg hswap]
          exact unionOrdered_spec hR hCR (wrapped_of_not_swap hswap) PrefType

theorem elements_inverse (hw : 0 < w) (R : ConstantRange w) :
    R.inverse.elements = R.elementsᶜ := by
  ext v
  exact mem_inverse_iff hw

theorem eq_of_elements_eq (hw : 0 < w) (h : R.elements = CR.elements) : R = CR :=
  ext_mem hw fun v => Set.ext_iff.mp h v

theorem Representable.compl (hw : 0 < w) (h : Representable S) : Representable Sᶜ := by
  obtain ⟨R, rfl⟩ := h
  exact ⟨R.inverse, elements_inverse hw R⟩

/--
A hull of a set agrees with the inverse of a hull of its complement where the
set is a range, and nowhere else.
-/
theorem IsHull.eq_inverse_iff (hw : 0 < w) {Outer Inner : ConstantRange w}
    (hOuter : IsHull S PrefType Outer) (hInner : IsHull Sᶜ PrefType Inner) :
    Outer = Inner.inverse ↔ Representable S := by
  constructor
  · intro heq
    refine ⟨Outer, Set.Subset.antisymm ?_ hOuter.covers⟩
    rw [heq, elements_inverse hw]
    exact Set.compl_subset_comm.mp hInner.covers
  · intro hS
    apply eq_of_elements_eq hw
    rw [elements_inverse hw, hOuter.exact hS, hInner.exact (hS.compl hw), compl_compl]

/-- A result for a set that is a range, and none for another. -/
structure IsExact (S : Set (BitVec w)) (r : Option (ConstantRange w)) : Prop where
  isSome_iff : r.isSome = true ↔ Representable S
  elements_eq : ∀ R, r = some R → R.elements = S

theorem IsHull.isExact (hw : 0 < w) {Outer Inner : ConstantRange w}
    (hOuter : IsHull S PrefType Outer) (hInner : IsHull Sᶜ PrefType Inner) :
    IsExact S (if Outer = Inner.inverse then some Outer else none) := by
  have hiff := hOuter.eq_inverse_iff hw hInner
  by_cases heq : Outer = Inner.inverse
  · rw [if_pos heq]
    have hS := hiff.mp heq
    refine ⟨iff_of_true rfl hS, ?_⟩
    rintro R ⟨⟩
    exact hOuter.exact hS
  · rw [if_neg heq]
    refine ⟨iff_of_false Bool.false_ne_true (fun hS => heq (hiff.mpr hS)), ?_⟩
    rintro R ⟨⟩

theorem isExact_of_width_zero (hw : w = 0) (hS : S.Nonempty) (R : ConstantRange w) :
    IsExact S (some R) := by
  have helements : R.elements = S := elements_of_width_zero hw S hS
  refine ⟨iff_of_true rfl ⟨R, helements⟩, ?_⟩
  rintro R' ⟨⟩
  exact helements

theorem exactIntersectWith_spec (R CR : ConstantRange w) :
    ∃ r, R.exactIntersectWith CR = some r ∧ IsExact (R.elements ∩ CR.elements) r := by
  obtain ⟨Res, hRes, hhull⟩ := intersectWith_hull R CR .Smallest
  obtain ⟨Union, hUnion, hhull'⟩ := unionWith_hull R.inverse CR.inverse .Smallest
  refine ⟨if Res = Union.inverse then some Res else none, ?_, ?_⟩
  · simp only [exactIntersectWith, hRes, hUnion, Option.bind_eq_bind, Option.bind_some]
    rfl
  · rcases Nat.eq_zero_or_pos w with hzero | hw
    · rw [if_pos (eq_of_width_zero hzero _ _)]
      have hboth : (R.elements ∩ CR.elements).Nonempty :=
        ⟨0, mem_of_width_zero hzero, mem_of_width_zero hzero⟩
      exact isExact_of_width_zero hzero hboth Res
    · rw [elements_inverse hw, elements_inverse hw, ← Set.compl_inter] at hhull'
      exact hhull.isExact hw hhull'

theorem exactUnionWith_spec (R CR : ConstantRange w) :
    ∃ r, R.exactUnionWith CR = some r ∧ IsExact (R.elements ∪ CR.elements) r := by
  obtain ⟨Res, hRes, hhull⟩ := unionWith_hull R CR .Smallest
  obtain ⟨Inter, hInter, hhull'⟩ := intersectWith_hull R.inverse CR.inverse .Smallest
  refine ⟨if Res = Inter.inverse then some Res else none, ?_, ?_⟩
  · simp only [exactUnionWith, hRes, hInter, Option.bind_eq_bind, Option.bind_some]
    rfl
  · rcases Nat.eq_zero_or_pos w with hzero | hw
    · rw [if_pos (eq_of_width_zero hzero _ _)]
      have heither : (R.elements ∪ CR.elements).Nonempty := ⟨0, Or.inl (mem_of_width_zero hzero)⟩
      exact isExact_of_width_zero hzero heither Res
    · rw [elements_inverse hw, elements_inverse hw, ← Set.compl_union] at hhull'
      exact hhull.isExact hw hhull'

/--
Intersection and union of two ranges: hulls of the sets, for every preference,
and the exact variants answer just for the sets that are ranges. No assertion
fails.
-/
theorem intersectWith_unionWith_exact (R CR : ConstantRange w) :
    (∀ PrefType,
      (∃ Res, R.intersectWith CR PrefType = some Res ∧
        IsHull (R.elements ∩ CR.elements) PrefType Res) ∧
      ∃ Res, R.unionWith CR PrefType = some Res ∧
        IsHull (R.elements ∪ CR.elements) PrefType Res) ∧
    (∃ r, R.exactIntersectWith CR = some r ∧ IsExact (R.elements ∩ CR.elements) r) ∧
    ∃ r, R.exactUnionWith CR = some r ∧ IsExact (R.elements ∪ CR.elements) r :=
  ⟨fun PrefType => ⟨intersectWith_hull R CR PrefType, unionWith_hull R CR PrefType⟩,
    exactIntersectWith_spec R CR, exactUnionWith_spec R CR⟩

end SmlnjLlvm.ConstantRange
