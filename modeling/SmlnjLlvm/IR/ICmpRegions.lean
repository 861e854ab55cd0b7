import SmlnjLlvm.IR.RangeMinMax

/-!
# Regions of integer comparisons

For a predicate and a range of right operands there are two regions of left
operands: those for which the comparison may hold, and those for which it always
does. The first is a half line at the extreme element of the range, and the second
is the complement of the first for the inverse predicate.
-/

namespace SmlnjLlvm

namespace CmpInst

variable {w : Nat}

/-- The predicates of integer comparisons. -/
inductive Predicate where
  | ICMP_EQ
  | ICMP_NE
  | ICMP_UGT
  | ICMP_UGE
  | ICMP_ULT
  | ICMP_ULE
  | ICMP_SGT
  | ICMP_SGE
  | ICMP_SLT
  | ICMP_SLE
  deriving DecidableEq, Repr

open Predicate

def getInversePredicate : Predicate → Predicate
  | ICMP_EQ => ICMP_NE
  | ICMP_NE => ICMP_EQ
  | ICMP_UGT => ICMP_ULE
  | ICMP_ULT => ICMP_UGE
  | ICMP_UGE => ICMP_ULT
  | ICMP_ULE => ICMP_UGT
  | ICMP_SGT => ICMP_SLE
  | ICMP_SLT => ICMP_SGE
  | ICMP_SGE => ICMP_SLT
  | ICMP_SLE => ICMP_SGT

/-- `ICmpInst::compare` -/
def compare (LHS RHS : BitVec w) : Predicate → Bool
  | ICMP_EQ => LHS == RHS
  | ICMP_NE => LHS != RHS
  | ICMP_UGT => RHS.ult LHS
  | ICMP_UGE => RHS.ule LHS
  | ICMP_ULT => LHS.ult RHS
  | ICMP_ULE => LHS.ule RHS
  | ICMP_SGT => RHS.slt LHS
  | ICMP_SGE => RHS.sle LHS
  | ICMP_SLT => LHS.slt RHS
  | ICMP_SLE => LHS.sle RHS

theorem compare_inverse (x y : BitVec w) (Pred : Predicate) :
    compare x y (getInversePredicate Pred) = !compare x y Pred := by
  cases Pred <;> simp [compare, getInversePredicate, bne, BitVec.ule_eq_not_ult,
    BitVec.sle_eq_not_slt]

end CmpInst

namespace ConstantRange

open CmpInst CmpInst.Predicate Words APIntOps

variable {w : Nat} {R CR : ConstantRange w} {v x y L U lo hi : BitVec w}

def makeAllowedICmpRegion (Pred : Predicate) (CR : ConstantRange w) : Option (ConstantRange w) :=
  if CR.isEmptySet then some CR
  else
    match Pred with
    | ICMP_EQ => some CR
    | ICMP_NE => if CR.isSingleElement then ofBounds CR.Upper CR.Lower else some getFull
    | ICMP_ULT =>
      let UMax := CR.getUnsignedMax
      if UMax = 0 then some getEmpty else ofBounds 0 UMax
    | ICMP_SLT =>
      let SMax := CR.getSignedMax
      if SMax = BitVec.intMin w then some getEmpty else ofBounds (BitVec.intMin w) SMax
    | ICMP_ULE => some (getNonEmpty 0 (CR.getUnsignedMax + 1))
    | ICMP_SLE => some (getNonEmpty (BitVec.intMin w) (CR.getSignedMax + 1))
    | ICMP_UGT =>
      let UMin := CR.getUnsignedMin
      if UMin = BitVec.allOnes w then some getEmpty else ofBounds (UMin + 1) 0
    | ICMP_SGT =>
      let SMin := CR.getSignedMin
      if SMin = BitVec.intMax w then some getEmpty else ofBounds (SMin + 1) (BitVec.intMin w)
    | ICMP_UGE => some (getNonEmpty CR.getUnsignedMin 0)
    | ICMP_SGE => some (getNonEmpty CR.getSignedMin (BitVec.intMin w))

def makeSatisfyingICmpRegion (Pred : Predicate) (CR : ConstantRange w) :
    Option (ConstantRange w) :=
  (makeAllowedICmpRegion (getInversePredicate Pred) CR).map inverse

def makeExactICmpRegion (Pred : Predicate) (C : BitVec w) : Option (ConstantRange w) := do
  let Allowed ← makeAllowedICmpRegion Pred (ofAPInt C)
  let Satisfying ← makeSatisfyingICmpRegion Pred (ofAPInt C)
  if Allowed = Satisfying then some Allowed else none

/-- The predicate, the right operand and the offset that `getEquivalentICmp` chooses. -/
def equivalentICmp (R : ConstantRange w) : Predicate × BitVec w × BitVec w :=
  if R.isFullSet || R.isEmptySet then
    (if R.isEmptySet then ICMP_ULT else ICMP_UGE, 0, 0)
  else
    match R.getSingleElement with
    | some OnlyElt => (ICMP_EQ, OnlyElt, 0)
    | none =>
      match R.getSingleMissingElement with
      | some OnlyMissingElt => (ICMP_NE, OnlyMissingElt, 0)
      | none =>
        if R.Lower = BitVec.intMin w ∨ R.Lower = 0 then
          (if R.Lower = BitVec.intMin w then ICMP_SLT else ICMP_ULT, R.Upper, 0)
        else if R.Upper = BitVec.intMin w ∨ R.Upper = 0 then
          (if R.Upper = BitVec.intMin w then ICMP_SGE else ICMP_UGE, R.Lower, 0)
        else (ICMP_ULT, R.Upper - R.Lower, -R.Lower)

/-- `getEquivalentICmp`, with its assertion. -/
def getEquivalentICmp (R : ConstantRange w) : Option (Predicate × BitVec w × BitVec w) := do
  let (Pred, RHS, Offset) := R.equivalentICmp
  let Exact ← makeExactICmpRegion Pred RHS
  let Moved ← R.add (ofAPInt Offset)
  if Exact = Moved then some (Pred, RHS, Offset) else none

def icmp (R : ConstantRange w) (Pred : Predicate) (Other : ConstantRange w) : Option Bool :=
  (makeSatisfyingICmpRegion Pred Other).map fun S => S.containsRange R

theorem allOnes_add_one : BitVec.allOnes w + 1 = 0 := by
  rw [← BitVec.neg_one_eq_allOnes]
  exact neg_add_cancel 1

theorem ofBounds_below (h : U ≠ 0) :
    ∃ Res, ofBounds 0 U = some Res ∧ ∀ v, v ∈ Res ↔ v.toNat < U.toNat := by
  have hne : (0 : BitVec w) ≠ U := fun heq => h heq.symm
  refine ⟨_, ofBounds_of_ne hne, fun v => (mem_iff hne).trans ?_⟩
  dsimp only
  rw [BitVec.ofNat_eq_ofNat, BitVec.toNat_zero, Arc.mem_of_lt (Support.toNat_ne_zero.mp h)]
  exact and_iff_right (Nat.zero_le _)

theorem toInt_sub_one_of_ne (h : U ≠ BitVec.intMin w) : (U - 1).toInt = U.toInt - 1 := by
  have hw : 0 < w := width_pos h
  have hmin : U.toInt ≠ -(2 ^ (w - 1)) := fun heq =>
    h (BitVec.eq_of_toInt_eq (heq.trans (toInt_intMin hw).symm))
  have hsub := toInt_sub_one_cases hw U
  omega

theorem toInt_add_one_of_ne (h : lo ≠ BitVec.intMax w) : (lo + 1).toInt = lo.toInt + 1 := by
  have hw : 0 < w := width_pos h
  have hmax : lo.toInt ≠ 2 ^ (w - 1) - 1 := fun heq =>
    h (BitVec.eq_of_toInt_eq (heq.trans (toInt_intMax hw).symm))
  have hadd := toInt_add_one_cases hw lo
  omega

theorem toNat_add_one_of_ne (h : lo ≠ BitVec.allOnes w) : (lo + 1).toNat = lo.toNat + 1 := by
  have hw : 0 < w := width_pos h
  have hmax : lo.toNat ≠ 2 ^ w - 1 := fun heq =>
    h (BitVec.eq_of_toNat_eq (heq.trans BitVec.toNat_allOnes.symm))
  have hadd := toNat_add_one_cases hw lo
  omega

theorem ofBounds_sbelow (h : U ≠ BitVec.intMin w) :
    ∃ Res, ofBounds (BitVec.intMin w) U = some Res ∧ ∀ v, v ∈ Res ↔ v.toInt < U.toInt := by
  have hw : 0 < w := width_pos h
  have hpred := toInt_sub_one_of_ne h
  have hmin : U.toInt ≠ -(2 ^ (w - 1)) := fun heq =>
    h (BitVec.eq_of_toInt_eq (heq.trans (toInt_intMin hw).symm))
  have hbounds := toInt_bounds hw U
  have hle : (BitVec.intMin w).toInt ≤ (U - 1).toInt := by
    rw [toInt_intMin hw]
    omega
  have hne : BitVec.intMin w ≠ U - 1 + 1 := by
    rw [BitVec.sub_add_cancel]
    exact fun heq => h heq.symm
  obtain ⟨Res, hRes, hmem⟩ := ofBounds_sbetween hle hne
  rw [BitVec.sub_add_cancel] at hRes
  refine ⟨Res, hRes, fun v => (hmem v).trans ?_⟩
  have hv := toInt_bounds hw v
  rw [SBetween, toInt_intMin hw, hpred]
  omega

theorem mem_upTo : v ∈ getNonEmpty 0 (hi + 1) ↔ v.toNat ≤ hi.toNat := by
  have hzero : (0 : BitVec w).toNat ≤ hi.toNat := Nat.zero_le _
  exact (mem_getNonEmpty_iff hzero).trans (and_iff_right (Nat.zero_le _))

theorem intMin_le (hw : 0 < w) (v : BitVec w) : (BitVec.intMin w).toInt ≤ v.toInt := by
  rw [toInt_intMin hw]
  exact (toInt_bounds hw v).1

theorem le_intMax (hw : 0 < w) (v : BitVec w) : v.toInt ≤ (BitVec.intMax w).toInt := by
  have hv := toInt_bounds hw v
  rw [toInt_intMax hw]
  omega

theorem mem_supTo (hw : 0 < w) : v ∈ getNonEmpty (BitVec.intMin w) (hi + 1) ↔
    v.toInt ≤ hi.toInt :=
  (mem_getNonEmpty_iff_signed (intMin_le hw hi)).trans (and_iff_right (intMin_le hw v))

theorem le_allOnes (v : BitVec w) : v.toNat ≤ (BitVec.allOnes w).toNat := by
  rw [BitVec.toNat_allOnes]
  exact Nat.le_sub_one_of_lt v.isLt

theorem mem_from : v ∈ getNonEmpty lo 0 ↔ lo.toNat ≤ v.toNat := by
  have h := mem_getNonEmpty_iff (v := v) (le_allOnes lo)
  rw [allOnes_add_one] at h
  exact h.trans (and_iff_left (le_allOnes v))

theorem mem_sfrom (hw : 0 < w) : v ∈ getNonEmpty lo (BitVec.intMin w) ↔
    lo.toInt ≤ v.toInt := by
  have h := mem_getNonEmpty_iff_signed (v := v) (le_intMax hw lo)
  rw [intMax_add_one hw] at h
  exact h.trans (and_iff_left (le_intMax hw v))

theorem ofBounds_above (h : lo ≠ BitVec.allOnes w) :
    ∃ Res, ofBounds (lo + 1) 0 = some Res ∧ ∀ v, v ∈ Res ↔ lo.toNat < v.toNat := by
  have hsucc := toNat_add_one_of_ne h
  have hne : lo + 1 ≠ 0 := by
    intro heq
    rw [heq, BitVec.ofNat_eq_ofNat, BitVec.toNat_zero] at hsucc
    omega
  refine ⟨_, ofBounds_of_ne hne, fun v => ?_⟩
  have hfrom : v ∈ getNonEmpty (lo + 1) 0 ↔ (lo + 1).toNat ≤ v.toNat := mem_from
  rw [getNonEmpty, dif_neg hne, hsucc] at hfrom
  exact hfrom

theorem ofBounds_sabove (h : lo ≠ BitVec.intMax w) :
    ∃ Res, ofBounds (lo + 1) (BitVec.intMin w) = some Res ∧
      ∀ v, v ∈ Res ↔ lo.toInt < v.toInt := by
  have hw : 0 < w := width_pos h
  have hsucc := toInt_add_one_of_ne h
  have hbounds := intMin_le hw lo
  have hne : lo + 1 ≠ BitVec.intMin w := by
    intro heq
    rw [heq] at hsucc
    omega
  refine ⟨_, ofBounds_of_ne hne, fun v => ?_⟩
  have hfrom : v ∈ getNonEmpty (lo + 1) (BitVec.intMin w) ↔ (lo + 1).toInt ≤ v.toInt :=
    mem_sfrom hw
  rw [getNonEmpty, dif_neg hne, hsucc] at hfrom
  exact hfrom

section Extremes

variable {α : Type} [Preorder α] (f : BitVec w → α)

theorem exists_lt_iff (hmem : y ∈ R) (hmax : ∀ v ∈ R, f v ≤ f y) (a : α) :
    (∃ v ∈ R, a < f v) ↔ a < f y :=
  ⟨fun ⟨v, hv, hlt⟩ => lt_of_lt_of_le hlt (hmax v hv), fun h => ⟨y, hmem, h⟩⟩

theorem exists_le_iff (hmem : y ∈ R) (hmax : ∀ v ∈ R, f v ≤ f y) (a : α) :
    (∃ v ∈ R, a ≤ f v) ↔ a ≤ f y :=
  ⟨fun ⟨v, hv, hle⟩ => le_trans hle (hmax v hv), fun h => ⟨y, hmem, h⟩⟩

theorem exists_gt_iff (hmem : y ∈ R) (hmin : ∀ v ∈ R, f y ≤ f v) (a : α) :
    (∃ v ∈ R, f v < a) ↔ f y < a :=
  ⟨fun ⟨v, hv, hlt⟩ => lt_of_le_of_lt (hmin v hv) hlt, fun h => ⟨y, hmem, h⟩⟩

theorem exists_ge_iff (hmem : y ∈ R) (hmin : ∀ v ∈ R, f y ≤ f v) (a : α) :
    (∃ v ∈ R, f v ≤ a) ↔ f y ≤ a :=
  ⟨fun ⟨v, hv, hle⟩ => le_trans (hmin v hv) hle, fun h => ⟨y, hmem, h⟩⟩

end Extremes

/-! ## The allowed region -/

theorem add_one_ne (hw : 0 < w) (x : BitVec w) : x + 1 ≠ x := by
  intro h
  have hsucc := toNat_add_one_cases hw x
  have hpow := two_pow_eq hw
  rw [h] at hsucc
  omega

theorem isSingleElement_iff : R.isSingleElement = true ↔ R.Upper = R.Lower + 1 := by
  unfold isSingleElement getSingleElement
  split_ifs with h
  · exact iff_of_true rfl h
  · exact iff_of_false Bool.false_ne_true h

theorem makeAllowedICmpRegion_ne (hw : 0 < w) (hempty : CR.isEmptySet = false) :
    ∃ A, makeAllowedICmpRegion ICMP_NE CR = some A ∧ ∀ x, x ∈ A ↔ ∃ y ∈ CR, x ≠ y := by
  simp only [makeAllowedICmpRegion, hempty, Bool.false_eq_true, if_false]
  split_ifs with hsingle
  · have hupper := isSingleElement_iff.mp hsingle
    have hne : CR.Upper ≠ CR.Lower := by
      rw [hupper]
      exact add_one_ne hw _
    refine ⟨_, ofBounds_of_ne hne, fun x => ?_⟩
    have hone : CR.getSingleElement = some CR.Lower := if_pos hupper
    rw [mem_iff hne, Arc.mem_swap_iff (toNat_ne hne.symm), ← mem_iff hne.symm,
      mem_single_iff hw hone]
    refine ⟨fun h => ⟨CR.Lower, first_mem hempty, h⟩, ?_⟩
    rintro ⟨y, hy, hxy⟩
    rwa [(mem_single_iff hw hone).mp hy] at hxy
  · refine ⟨_, rfl, fun x => iff_of_true (mem_getFull x) ?_⟩
    -- the first and the last element differ
    by_cases hx : x = CR.Lower
    · refine ⟨CR.Upper - 1, last_mem hempty, ?_⟩
      rw [hx]
      intro h
      apply hsingle
      rw [isSingleElement_iff, h, BitVec.sub_add_cancel]
    · exact ⟨CR.Lower, first_mem hempty, hx⟩

theorem makeAllowedICmpRegion_unsigned (hw : 0 < w) (hempty : CR.isEmptySet = false) :
    (∃ A, makeAllowedICmpRegion ICMP_ULT CR = some A ∧
      ∀ x, x ∈ A ↔ ∃ y ∈ CR, x.toNat < y.toNat) ∧
    (∃ A, makeAllowedICmpRegion ICMP_ULE CR = some A ∧
      ∀ x, x ∈ A ↔ ∃ y ∈ CR, x.toNat ≤ y.toNat) ∧
    (∃ A, makeAllowedICmpRegion ICMP_UGT CR = some A ∧
      ∀ x, x ∈ A ↔ ∃ y ∈ CR, y.toNat < x.toNat) ∧
    ∃ A, makeAllowedICmpRegion ICMP_UGE CR = some A ∧
      ∀ x, x ∈ A ↔ ∃ y ∈ CR, y.toNat ≤ x.toNat := by
  have hmax : ∀ v ∈ CR, v.toNat ≤ CR.getUnsignedMax.toNat := fun _ => le_getUnsignedMax
  have hmin : ∀ v ∈ CR, CR.getUnsignedMin.toNat ≤ v.toNat := fun _ => getUnsignedMin_le
  have hmaxmem := getUnsignedMax_mem hempty
  have hminmem := getUnsignedMin_mem hempty
  simp only [makeAllowedICmpRegion, hempty, Bool.false_eq_true, if_false,
    exists_lt_iff BitVec.toNat hmaxmem hmax, exists_le_iff BitVec.toNat hmaxmem hmax,
    exists_gt_iff BitVec.toNat hminmem hmin, exists_ge_iff BitVec.toNat hminmem hmin]
  refine ⟨?_, ⟨_, rfl, fun x => mem_upTo⟩, ?_, ⟨_, rfl, fun x => mem_from⟩⟩
  · split_ifs with hzero
    · refine ⟨_, rfl, fun x => iff_of_false (not_mem_getEmpty hw x) ?_⟩
      rw [hzero, BitVec.ofNat_eq_ofNat, BitVec.toNat_zero]
      exact Nat.not_lt_zero _
    · exact ofBounds_below hzero
  · split_ifs with hlast
    · refine ⟨_, rfl, fun x => iff_of_false (not_mem_getEmpty hw x) ?_⟩
      rw [hlast]
      exact Nat.not_lt.mpr (le_allOnes x)
    · exact ofBounds_above hlast

theorem makeAllowedICmpRegion_signed (hw : 0 < w) (hempty : CR.isEmptySet = false) :
    (∃ A, makeAllowedICmpRegion ICMP_SLT CR = some A ∧
      ∀ x, x ∈ A ↔ ∃ y ∈ CR, x.toInt < y.toInt) ∧
    (∃ A, makeAllowedICmpRegion ICMP_SLE CR = some A ∧
      ∀ x, x ∈ A ↔ ∃ y ∈ CR, x.toInt ≤ y.toInt) ∧
    (∃ A, makeAllowedICmpRegion ICMP_SGT CR = some A ∧
      ∀ x, x ∈ A ↔ ∃ y ∈ CR, y.toInt < x.toInt) ∧
    ∃ A, makeAllowedICmpRegion ICMP_SGE CR = some A ∧
      ∀ x, x ∈ A ↔ ∃ y ∈ CR, y.toInt ≤ x.toInt := by
  have hmax : ∀ v ∈ CR, v.toInt ≤ CR.getSignedMax.toInt := fun _ => le_getSignedMax
  have hmin : ∀ v ∈ CR, CR.getSignedMin.toInt ≤ v.toInt := fun _ => getSignedMin_le
  have hmaxmem := getSignedMax_mem hempty
  have hminmem := getSignedMin_mem hempty
  simp only [makeAllowedICmpRegion, hempty, Bool.false_eq_true, if_false,
    exists_lt_iff BitVec.toInt hmaxmem hmax, exists_le_iff BitVec.toInt hmaxmem hmax,
    exists_gt_iff BitVec.toInt hminmem hmin, exists_ge_iff BitVec.toInt hminmem hmin]
  refine ⟨?_, ⟨_, rfl, fun x => mem_supTo hw⟩, ?_, ⟨_, rfl, fun x => mem_sfrom hw⟩⟩
  · split_ifs with hfirst
    · refine ⟨_, rfl, fun x => iff_of_false (not_mem_getEmpty hw x) ?_⟩
      rw [hfirst]
      exact Int.not_lt.mpr (intMin_le hw x)
    · exact ofBounds_sbelow hfirst
  · split_ifs with hlast
    · refine ⟨_, rfl, fun x => iff_of_false (not_mem_getEmpty hw x) ?_⟩
      rw [hlast]
      exact Int.not_lt.mpr (le_intMax hw x)
    · exact ofBounds_sabove hlast

theorem makeAllowedICmpRegion_exact (hw : 0 < w) (Pred : Predicate) (CR : ConstantRange w) :
    ∃ A, makeAllowedICmpRegion Pred CR = some A ∧
      ∀ x, x ∈ A ↔ ∃ y ∈ CR, CmpInst.compare x y Pred = true := by
  cases hempty : CR.isEmptySet with
  | true =>
    have hCR : CR = getEmpty := isEmptySet_iff.mp hempty
    refine ⟨CR, if_pos hempty, fun x => ?_⟩
    rw [hCR]
    refine iff_of_false (not_mem_getEmpty hw x) ?_
    rintro ⟨y, hy, -⟩
    exact not_mem_getEmpty hw y hy
  | false =>
    obtain ⟨hult, hule, hugt, huge⟩ := makeAllowedICmpRegion_unsigned hw hempty
    obtain ⟨hslt, hsle, hsgt, hsge⟩ := makeAllowedICmpRegion_signed hw hempty
    cases Pred <;>
      simp only [CmpInst.compare, beq_iff_eq, bne_iff_ne, BitVec.ult_iff_toNat_lt, BitVec.ule_iff_toNat_le,
        BitVec.slt_iff_toInt_lt, BitVec.sle_iff_toInt_le]
    case ICMP_EQ =>
      refine ⟨CR, by simp [makeAllowedICmpRegion], fun x => ?_⟩
      exact ⟨fun h => ⟨x, h, rfl⟩, fun ⟨y, hy, hxy⟩ => hxy ▸ hy⟩
    case ICMP_NE => exact makeAllowedICmpRegion_ne hw hempty
    all_goals assumption

theorem makeSatisfyingICmpRegion_exact (hw : 0 < w) (Pred : Predicate) (CR : ConstantRange w) :
    ∃ S, makeSatisfyingICmpRegion Pred CR = some S ∧
      ∀ x, x ∈ S ↔ ∀ y ∈ CR, CmpInst.compare x y Pred = true := by
  obtain ⟨A, hA, hmem⟩ := makeAllowedICmpRegion_exact hw (getInversePredicate Pred) CR
  refine ⟨A.inverse, by rw [makeSatisfyingICmpRegion, hA, Option.map_some], fun x => ?_⟩
  rw [mem_inverse_iff hw, hmem]
  simp [compare_inverse]

theorem mem_ofAPInt_iff (hw : 0 < w) : x ∈ ofAPInt y ↔ x = y :=
  mem_single_iff hw (if_pos rfl)

theorem makeExactICmpRegion_exact (hw : 0 < w) (Pred : Predicate) (C : BitVec w) :
    makeAllowedICmpRegion Pred (ofAPInt C) = makeSatisfyingICmpRegion Pred (ofAPInt C) ∧
      ∃ E, makeExactICmpRegion Pred C = some E ∧ ∀ x, x ∈ E ↔ CmpInst.compare x C Pred = true := by
  obtain ⟨A, hA, hAmem⟩ := makeAllowedICmpRegion_exact hw Pred (ofAPInt C)
  obtain ⟨S, hS, hSmem⟩ := makeSatisfyingICmpRegion_exact hw Pred (ofAPInt C)
  have hex : ∀ x, x ∈ A ↔ CmpInst.compare x C Pred = true := fun x => by
    rw [hAmem]
    simp [mem_ofAPInt_iff hw]
  have heq : A = S := ext_mem hw fun x => by
    rw [hex, hSmem]
    simp [mem_ofAPInt_iff hw]
  refine ⟨by rw [hA, hS, heq], A, ?_, hex⟩
  simp [makeExactICmpRegion, hA, hS, heq]

theorem subset_iff_arc (hR : R.Lower ≠ R.Upper) (hCR : CR.Lower ≠ CR.Upper) :
    (∀ v, v ∈ CR → v ∈ R) ↔ ∀ n < 2 ^ w, Arc.Mem CR.Lower.toNat CR.Upper.toNat n →
      Arc.Mem R.Lower.toNat R.Upper.toNat n := by
  simp only [mem_iff hR, mem_iff hCR]
  constructor
  · intro h n hn hmem
    have hcast : (BitVec.ofNat w n).toNat = n := Nat.mod_eq_of_lt hn
    have hsub := h (BitVec.ofNat w n)
    rw [hcast] at hsub
    exact hsub hmem
  · exact fun h v => h v.toNat v.isLt

theorem not_mem_of_ne_getFull (hw : 0 < w) (h : R ≠ getFull) : ∃ v, v ∉ R := by
  rcases eq_cases R with hfull | hempty | hne
  · exact absurd hfull h
  · exact ⟨0, hempty ▸ not_mem_getEmpty hw 0⟩
  · exact ⟨R.Upper, Upper_not_mem hne⟩

theorem containsRange_iff (hw : 0 < w) (R CR : ConstantRange w) :
    R.containsRange CR = true ↔ ∀ v, v ∈ CR → v ∈ R := by
  unfold containsRange
  by_cases hfirst : (R.isFullSet || CR.isEmptySet) = true
  · rw [if_pos hfirst]
    refine iff_of_true rfl fun v hv => ?_
    rw [Bool.or_eq_true, isFullSet_iff, isEmptySet_iff] at hfirst
    rcases hfirst with rfl | rfl
    · exact mem_getFull v
    · exact absurd hv (not_mem_getEmpty hw v)
  rw [if_neg hfirst]
  rw [Bool.or_eq_true, isFullSet_iff, isEmptySet_iff, not_or] at hfirst
  by_cases hsecond : (R.isEmptySet || CR.isFullSet) = true
  · rw [if_pos hsecond]
    refine iff_of_false Bool.false_ne_true fun hsub => ?_
    rw [Bool.or_eq_true, isFullSet_iff, isEmptySet_iff] at hsecond
    rcases hsecond with rfl | rfl
    · have hempty : CR.isEmptySet = false :=
        Bool.eq_false_of_not_eq_true fun h => hfirst.2 (isEmptySet_iff.mp h)
      exact not_mem_getEmpty hw _ (hsub _ (first_mem hempty))
    · obtain ⟨v, hv⟩ := not_mem_of_ne_getFull hw hfirst.1
      exact hv (hsub v (mem_getFull v))
  rw [if_neg hsecond]
  rw [Bool.or_eq_true, isFullSet_iff, isEmptySet_iff, not_or] at hsecond
  have hR := ne_of_not_full_empty hfirst.1 hsecond.1
  have hCR := ne_of_not_full_empty hsecond.2 hfirst.2
  have hRne := toNat_ne hR
  have hCRne := toNat_ne hCR
  rw [subset_iff_arc hR hCR]
  by_cases hwrap : R.Upper.toNat < R.Lower.toNat
  · by_cases hwrap' : CR.Upper.toNat < CR.Lower.toNat
    · rw [Arc.subset_of_gt_gt CR.Upper.isLt hwrap' R.Lower.isLt hwrap]
      simp [isUpperWrapped, BitVec.ult_eq_decide, BitVec.ule_eq_decide, hwrap, hwrap']
    · rw [Arc.subset_of_gt CR.Upper.isLt (by omega) hwrap]
      simp [isUpperWrapped, BitVec.ult_eq_decide, BitVec.ule_eq_decide, hwrap, hwrap']
  · rw [Arc.subset_of_lt CR.Lower.isLt CR.Upper.isLt (by omega) R.Upper.isLt]
    simp [isUpperWrapped, BitVec.ult_eq_decide, BitVec.ule_eq_decide, hwrap]
    omega

theorem icmp_exact (hw : 0 < w) (R : ConstantRange w) (Pred : Predicate)
    (Other : ConstantRange w) : ∃ b, R.icmp Pred Other = some b ∧
      (b = true ↔ ∀ x ∈ R, ∀ y ∈ Other, CmpInst.compare x y Pred = true) := by
  obtain ⟨S, hS, hmem⟩ := makeSatisfyingICmpRegion_exact hw Pred Other
  refine ⟨_, by rw [icmp, hS, Option.map_some], ?_⟩
  rw [containsRange_iff hw]
  exact forall₂_congr fun x _ => hmem x

/-! ## An equivalent comparison -/

theorem mem_iff_missing (hw : 0 < w) (hne : R.Lower ≠ R.Upper)
    (h : R.getSingleMissingElement = some y) : v ∈ R ↔ v ≠ y := by
  have hinverse : R.inverse = ⟨R.Upper, R.Lower, fun heq => absurd heq.symm hne⟩ := by
    rw [inverse, isFullSet_of_ne hne, isEmptySet_of_ne hne]
    rfl
  have hsingle : R.inverse.getSingleElement = some y := by
    rw [hinverse]
    exact h
  rw [← not_iff_not, ← mem_inverse_iff hw, mem_single_iff hw hsingle, not_not]

theorem mem_iff_of_Lower (hne : R.Lower ≠ R.Upper) :
    (R.Lower = BitVec.intMin w → (v ∈ R ↔ v.toInt < R.Upper.toInt)) ∧
      (R.Lower = 0 → (v ∈ R ↔ v.toNat < R.Upper.toNat)) := by
  constructor
  · intro h
    obtain ⟨Res, hRes, hmem⟩ := ofBounds_sbelow (U := R.Upper) fun heq => hne (h.trans heq.symm)
    rw [← h, ofBounds_of_ne hne] at hRes
    obtain rfl := Option.some.inj hRes
    exact hmem v
  · intro h
    obtain ⟨Res, hRes, hmem⟩ := ofBounds_below (U := R.Upper) fun heq => hne (h.trans heq.symm)
    rw [← h, ofBounds_of_ne hne] at hRes
    obtain rfl := Option.some.inj hRes
    exact hmem v

theorem mem_iff_of_Upper (hne : R.Lower ≠ R.Upper) :
    (R.Upper = BitVec.intMin w → (v ∈ R ↔ R.Lower.toInt ≤ v.toInt)) ∧
      (R.Upper = 0 → (v ∈ R ↔ R.Lower.toNat ≤ v.toNat)) := by
  have heq : getNonEmpty R.Lower R.Upper = R := dif_neg hne
  constructor
  · intro h
    have hfrom : v ∈ getNonEmpty R.Lower (BitVec.intMin w) ↔ R.Lower.toInt ≤ v.toInt :=
      mem_sfrom (width_pos hne)
    rwa [← h, heq] at hfrom
  · intro h
    have hfrom : v ∈ getNonEmpty R.Lower 0 ↔ R.Lower.toNat ≤ v.toNat := mem_from
    rwa [← h, heq] at hfrom

theorem equivalentICmp_spec (hw : 0 < w) (R : ConstantRange w) (x : BitVec w) :
    x ∈ R ↔ CmpInst.compare (x + R.equivalentICmp.2.2) R.equivalentICmp.2.1
      R.equivalentICmp.1 = true := by
  unfold equivalentICmp
  by_cases hspecial : (R.isFullSet || R.isEmptySet) = true
  · rw [if_pos hspecial]
    rw [Bool.or_eq_true, isFullSet_iff, isEmptySet_iff] at hspecial
    rcases hspecial with rfl | rfl
    · rw [isEmptySet_getFull hw]
      simp [CmpInst.compare, BitVec.ule_eq_decide, mem_getFull]
    · rw [isEmptySet_getEmpty]
      simp [CmpInst.compare, BitVec.ult_eq_decide, not_mem_getEmpty hw]
  rw [if_neg hspecial]
  rw [Bool.or_eq_true, isFullSet_iff, isEmptySet_iff, not_or] at hspecial
  have hne := ne_of_not_full_empty hspecial.1 hspecial.2
  cases hsingle : R.getSingleElement with
  | some OnlyElt =>
    simp only [CmpInst.compare, BitVec.ofNat_eq_ofNat, BitVec.add_zero, beq_iff_eq]
    exact mem_single_iff hw hsingle
  | none =>
    cases hmissing : R.getSingleMissingElement with
    | some OnlyMissingElt =>
      simp only [CmpInst.compare, BitVec.ofNat_eq_ofNat, BitVec.add_zero, bne_iff_ne]
      exact mem_iff_missing hw hne hmissing
    | none =>
      split_ifs with hlower hlower' hupper hupper'
      · simp only [CmpInst.compare, BitVec.ofNat_eq_ofNat, BitVec.add_zero,
          BitVec.slt_iff_toInt_lt]
        exact (mem_iff_of_Lower hne).1 hlower'
      · simp only [CmpInst.compare, BitVec.ofNat_eq_ofNat, BitVec.add_zero,
          BitVec.ult_iff_toNat_lt]
        exact (mem_iff_of_Lower hne).2 (hlower.resolve_left hlower')
      · simp only [CmpInst.compare, BitVec.ofNat_eq_ofNat, BitVec.add_zero,
          BitVec.sle_iff_toInt_le]
        exact (mem_iff_of_Upper hne).1 hupper'
      · simp only [CmpInst.compare, BitVec.ofNat_eq_ofNat, BitVec.add_zero,
          BitVec.ule_iff_toNat_le]
        exact (mem_iff_of_Upper hne).2 (hupper.resolve_left hupper')
      · simp only [CmpInst.compare, ← BitVec.sub_eq_add_neg, BitVec.ult_iff_toNat_lt]
        exact mem_iff_sub hne

theorem add_ofAPInt (hw : 0 < w) (R : ConstantRange w) (Offset : BitVec w) :
    ∃ M, R.add (ofAPInt Offset) = some M ∧ ∀ x, x ∈ M ↔ x - Offset ∈ R := by
  have hone : (ofAPInt Offset).Lower ≠ (ofAPInt Offset).Upper := (add_one_ne hw Offset).symm
  rcases eq_cases R with rfl | rfl | hne
  · refine ⟨getFull, ?_, fun x => iff_of_true (mem_getFull x) (mem_getFull _)⟩
    rw [add, isEmptySet_getFull hw, isEmptySet_of_ne hone, isFullSet_getFull]
    rfl
  · refine ⟨getEmpty, ?_, fun x => iff_of_false (not_mem_getEmpty hw x) (not_mem_getEmpty hw _)⟩
    rw [add, isEmptySet_getEmpty]
    rfl
  · have hUpper : R.Upper + (Offset + 1) - 1 = R.Upper + Offset := by
      rw [← BitVec.add_assoc, BitVec.add_sub_cancel]
    have hmoved : R.Lower + Offset ≠ R.Upper + Offset := fun h => hne (add_right_cancel h)
    have hsize : R.Upper + Offset - (R.Lower + Offset) = R.Upper - R.Lower :=
      add_sub_add_right_eq_sub _ _ _
    have hsize_one : (ofAPInt Offset).Upper - (ofAPInt Offset).Lower = 1 := add_sub_cancel_left _ _
    have hpos := size_pos hne
    have hlarge : ∀ CR : ConstantRange w, CR.Lower ≠ CR.Upper →
        (CR.Upper - CR.Lower).toNat ≤ (R.Upper - R.Lower).toNat →
          isSizeStrictlySmallerThan ⟨R.Lower + Offset, R.Upper + Offset, fun h => absurd h hmoved⟩
            CR = false := by
      intro CR hCR hle
      rw [isSizeStrictlySmallerThan, isFullSet_of_ne hmoved, isFullSet_of_ne hCR]
      simp only [Bool.false_eq_true, if_false, hsize, BitVec.ult_eq_decide, decide_eq_false_iff_not]
      omega
    refine ⟨⟨R.Lower + Offset, R.Upper + Offset, fun h => absurd h hmoved⟩, ?_, fun x => ?_⟩
    · have hself := hlarge R hne (Nat.le_refl _)
      have hother := hlarge (ofAPInt Offset) hone (by rw [hsize_one, toNat_one hw]; exact hpos)
      rw [add, isEmptySet_of_ne hne, isEmptySet_of_ne hone, isFullSet_of_ne hne,
        isFullSet_of_ne hone]
      simp only [Bool.or_self, Bool.false_eq_true, if_false, ofNewBounds, ofAPInt, hUpper,
        if_neg hmoved, ofBounds_of_ne hmoved]
      simp [hself]
      exact fun h => absurd (hother.symm.trans h) Bool.false_ne_true
    · rw [mem_iff_sub hmoved, mem_iff_sub hne, hsize, sub_add_eq_sub_sub_swap]

theorem getEquivalentICmp_exact (hw : 0 < w) (R : ConstantRange w) :
    ∃ Pred RHS Offset, R.getEquivalentICmp = some (Pred, RHS, Offset) ∧
      ∀ x, x ∈ R ↔ CmpInst.compare (x + Offset) RHS Pred = true := by
  have hspec := equivalentICmp_spec hw R
  rcases heq : R.equivalentICmp with ⟨Pred, RHS, Offset⟩
  rw [heq] at hspec
  obtain ⟨-, E, hE, hEmem⟩ := makeExactICmpRegion_exact hw Pred RHS
  obtain ⟨M, hM, hMmem⟩ := add_ofAPInt hw R Offset
  have hassert : E = M := ext_mem hw fun x => by
    rw [hEmem, hMmem, hspec, BitVec.sub_add_cancel]
  refine ⟨Pred, RHS, Offset, ?_, hspec⟩
  simp [getEquivalentICmp, heq, hE, hM, hassert]

theorem icmp_regions_exact (hw : 0 < w) (Pred : Predicate) (R Other : ConstantRange w) :
    (∃ A, makeAllowedICmpRegion Pred Other = some A ∧
      ∀ x, x ∈ A ↔ ∃ y ∈ Other, CmpInst.compare x y Pred = true) ∧
    (∃ S, makeSatisfyingICmpRegion Pred Other = some S ∧
      ∀ x, x ∈ S ↔ ∀ y ∈ Other, CmpInst.compare x y Pred = true) ∧
    (∀ C : BitVec w, makeAllowedICmpRegion Pred (ofAPInt C) =
      makeSatisfyingICmpRegion Pred (ofAPInt C)) ∧
    (∃ Pred' RHS Offset, R.getEquivalentICmp = some (Pred', RHS, Offset) ∧
      ∀ x, x ∈ R ↔ CmpInst.compare (x + Offset) RHS Pred' = true) ∧
    ∃ b, R.icmp Pred Other = some b ∧
      (b = true ↔ ∀ x ∈ R, ∀ y ∈ Other, CmpInst.compare x y Pred = true) :=
  ⟨makeAllowedICmpRegion_exact hw Pred Other, makeSatisfyingICmpRegion_exact hw Pred Other,
    fun C => (makeExactICmpRegion_exact hw Pred C).1, getEquivalentICmp_exact hw R,
    icmp_exact hw R Pred Other⟩

theorem icmp_regions_exact_byte :
    (∃ A, makeAllowedICmpRegion .ICMP_SLT (⟨250#8, 5#8, by decide⟩ : ConstantRange 8) = some A ∧
      ∀ x, x ∈ A ↔ ∃ y ∈ (⟨250#8, 5#8, by decide⟩ : ConstantRange 8),
        CmpInst.compare x y .ICMP_SLT = true) ∧
    (∃ S, makeSatisfyingICmpRegion .ICMP_SLT (⟨250#8, 5#8, by decide⟩ : ConstantRange 8) = some S ∧
      ∀ x, x ∈ S ↔ ∀ y ∈ (⟨250#8, 5#8, by decide⟩ : ConstantRange 8),
        CmpInst.compare x y .ICMP_SLT = true) ∧
    (∀ C : BitVec 8, makeAllowedICmpRegion .ICMP_SLT (ofAPInt C) =
      makeSatisfyingICmpRegion .ICMP_SLT (ofAPInt C)) ∧
    (∃ Pred' RHS Offset,
      (⟨3#8, 100#8, by decide⟩ : ConstantRange 8).getEquivalentICmp = some (Pred', RHS, Offset) ∧
      ∀ x, x ∈ (⟨3#8, 100#8, by decide⟩ : ConstantRange 8) ↔
        CmpInst.compare (x + Offset) RHS Pred' = true) ∧
    ∃ b, (⟨3#8, 100#8, by decide⟩ : ConstantRange 8).icmp .ICMP_SLT
        (⟨250#8, 5#8, by decide⟩ : ConstantRange 8) = some b ∧
      (b = true ↔ ∀ x ∈ (⟨3#8, 100#8, by decide⟩ : ConstantRange 8),
        ∀ y ∈ (⟨250#8, 5#8, by decide⟩ : ConstantRange 8),
          CmpInst.compare x y .ICMP_SLT = true) :=
  icmp_regions_exact (by decide) .ICMP_SLT ⟨3#8, 100#8, by decide⟩ ⟨250#8, 5#8, by decide⟩

end ConstantRange

end SmlnjLlvm
