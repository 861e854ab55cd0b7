import SmlnjLlvm.Support.KnownBits
import Mathlib.Tactic.LinearCombination

/-!
# Known bits of sums and differences

The carry into a position is least for the least members and greatest for the
greatest ones. So a bit of the sum is known exactly when both operand bits are
known and these two carries agree.
-/

namespace SmlnjLlvm.KnownBits

open BitOrder APIntOps

variable {w : Nat}

/-- `X + c` for an unsigned `c` that is a flag. -/
def addFlag (X : BitVec w) (c : Bool) : BitVec w := X + BitVec.setWidth w (BitVec.ofBool c)

def possibleSumZero (LHS RHS : KnownBits w) (CarryZero : Bool) : BitVec w :=
  addFlag (LHS.getMaxValue + RHS.getMaxValue) (!CarryZero)

def possibleSumOne (LHS RHS : KnownBits w) (CarryOne : Bool) : BitVec w :=
  addFlag (LHS.getMinValue + RHS.getMinValue) CarryOne

/-- The bits where all three relevant bits are known. -/
def knownOfSum (LHS RHS : KnownBits w) (CarryZero CarryOne : Bool) : BitVec w :=
  let CarryKnownZero := ~~~(possibleSumZero LHS RHS CarryZero ^^^ LHS.Zero ^^^ RHS.Zero)
  let CarryKnownOne := possibleSumOne LHS RHS CarryOne ^^^ LHS.One ^^^ RHS.One
  (LHS.Zero ||| LHS.One) &&& (RHS.Zero ||| RHS.One) &&& (CarryKnownZero ||| CarryKnownOne)

/-- The static `computeForAddCarry`, with what is known of the carry as two flags. -/
def computeForAddCarryFlags (LHS RHS : KnownBits w) (CarryZero CarryOne : Bool) :
    Option (KnownBits w) :=
  if CarryZero && CarryOne then none
  else
    let PossibleSumZero := possibleSumZero LHS RHS CarryZero
    let PossibleSumOne := possibleSumOne LHS RHS CarryOne
    let Known := knownOfSum LHS RHS CarryZero CarryOne
    if PossibleSumZero &&& Known ≠ PossibleSumOne &&& Known then none
    else some ⟨~~~PossibleSumZero &&& Known, PossibleSumOne &&& Known⟩

def computeForAddCarry (LHS RHS : KnownBits w) (Carry : KnownBits 1) : Option (KnownBits w) :=
  computeForAddCarryFlags LHS RHS (Carry.Zero != 0) (Carry.One != 0)

/-- `std::swap(RHS.Zero, RHS.One)` -/
def swap (RHS : KnownBits w) : KnownBits w := ⟨RHS.One, RHS.Zero⟩

/-- The sign of a sum that does not wrap, where it is not known already. -/
def refineSign (NSW : Bool) (LHS RHS KnownOut : KnownBits w) : KnownBits w :=
  if !KnownOut.isNegative && !KnownOut.isNonNegative then
    if NSW then
      if LHS.isNonNegative && RHS.isNonNegative then KnownOut.makeNonNegative
      else if LHS.isNegative && RHS.isNegative then KnownOut.makeNegative
      else KnownOut
    else KnownOut
  else KnownOut

def computeForAddSub (Add NSW : Bool) (LHS RHS : KnownBits w) : Option (KnownBits w) :=
  if Add then (computeForAddCarryFlags LHS RHS true false).map (refineSign NSW LHS RHS)
  else (computeForAddCarryFlags LHS RHS.swap false true).map (refineSign NSW LHS RHS.swap)

def computeForSubBorrow (LHS RHS : KnownBits w) (Borrow : KnownBits 1) : Option (KnownBits w) :=
  computeForAddCarryFlags LHS RHS.swap (Borrow.One != 0) (Borrow.Zero != 0)

variable {Carry : KnownBits 1} {c : Bool} {i : Nat} {l r : BitVec w}

theorem getLsbD_addFlag (l r : BitVec w) (c : Bool) (hi : i < w) :
    (addFlag (l + r) c).getLsbD i =
      (l.getLsbD i ^^ (r.getLsbD i ^^ BitVec.carry i l r c)) :=
  BitVec.getLsbD_add_add_bool hi l r c

/-- A carry that the flags admit. -/
def Admits (CarryZero CarryOne c : Bool) : Prop :=
  (CarryZero = true → c = false) ∧ (CarryOne = true → c = true)

section Sums

variable {LHS RHS : KnownBits w} {CarryZero CarryOne : Bool}

theorem admits_max (h : (CarryZero && CarryOne) = false) :
    Admits CarryZero CarryOne (!CarryZero) := by
  revert h
  cases CarryZero <;> cases CarryOne <;> simp [Admits]

theorem admits_min (h : (CarryZero && CarryOne) = false) :
    Admits CarryZero CarryOne CarryOne := by
  revert h
  cases CarryZero <;> cases CarryOne <;> simp [Admits]

theorem carry_le_max (hl : l ∈ LHS) (hr : r ∈ RHS) (hc : Admits CarryZero CarryOne c)
    (h : BitVec.carry i l r c = true) :
    BitVec.carry i LHS.getMaxValue RHS.getMaxValue (!CarryZero) = true := by
  refine carry_mono (mem_iff_below.mp hl).2 (mem_iff_below.mp hr).2 (fun hct => ?_) i h
  rw [Bool.not_eq_true']
  exact Bool.eq_false_of_not_eq_true fun hz => Bool.false_ne_true ((hc.1 hz).symm.trans hct)

theorem carry_of_min (hl : l ∈ LHS) (hr : r ∈ RHS) (hc : Admits CarryZero CarryOne c)
    (h : BitVec.carry i LHS.getMinValue RHS.getMinValue CarryOne = true) :
    BitVec.carry i l r c = true :=
  carry_mono (mem_iff_below.mp hl).1 (mem_iff_below.mp hr).1 hc.2 i h

theorem getLsbD_knownOfSum (hi : i < w) :
    (knownOfSum LHS RHS CarryZero CarryOne).getLsbD i =
      ((LHS.Zero.getLsbD i || LHS.One.getLsbD i) && (RHS.Zero.getLsbD i || RHS.One.getLsbD i) &&
        (!BitVec.carry i LHS.getMaxValue RHS.getMaxValue (!CarryZero) ||
          BitVec.carry i LHS.getMinValue RHS.getMinValue CarryOne)) := by
  have hmax := getLsbD_addFlag LHS.getMaxValue RHS.getMaxValue (!CarryZero) hi
  have hmin := getLsbD_addFlag LHS.getMinValue RHS.getMinValue CarryOne hi
  simp only [knownOfSum, possibleSumZero, possibleSumOne, BitVec.getLsbD_and, BitVec.getLsbD_or,
    BitVec.getLsbD_not, BitVec.getLsbD_xor, hmax, hmin, decide_eq_true hi, Bool.true_and]
  simp only [getMaxValue, getMinValue, BitVec.getLsbD_not, decide_eq_true hi, Bool.true_and]
  cases LHS.Zero.getLsbD i <;> cases RHS.Zero.getLsbD i <;> cases LHS.One.getLsbD i <;>
    cases RHS.One.getLsbD i <;> simp

theorem sum_of_known (hi : i < w)
    (hknown : (knownOfSum LHS RHS CarryZero CarryOne).getLsbD i = true) (hl : l ∈ LHS)
    (hr : r ∈ RHS) (hc : Admits CarryZero CarryOne c) :
    (addFlag (l + r) c).getLsbD i = (possibleSumOne LHS RHS CarryOne).getLsbD i := by
  rw [getLsbD_knownOfSum hi, Bool.and_eq_true, Bool.and_eq_true] at hknown
  obtain ⟨⟨hlk, hrk⟩, hcarry⟩ := hknown
  have hlow := carry_of_min hl hr hc (i := i)
  have hhigh := carry_le_max hl hr hc (i := i)
  rw [possibleSumOne, getLsbD_addFlag _ _ _ hi, getLsbD_addFlag _ _ _ hi, getLsbD_of_known hl hlk,
    getLsbD_of_known hr hrk]
  congr 2
  cases hv : BitVec.carry i l r c
  · refine (Bool.eq_false_of_not_eq_true fun hmin => ?_).symm
    exact Bool.false_ne_true (hv.symm.trans (hlow hmin))
  · rw [hhigh hv, Bool.not_true, Bool.false_or] at hcarry
    exact hcarry.symm

theorem sum_flips (hi : i < w) (hL : LHS.hasConflict = false)
    (hunknown : (LHS.Zero.getLsbD i || LHS.One.getLsbD i) = false) (r : BitVec w) (c : Bool) :
    ∃ l ∈ LHS, (addFlag (l + r) c).getLsbD i ≠ (addFlag (LHS.getMinValue + r) c).getLsbD i := by
  rw [Bool.or_eq_false_iff] at hunknown
  have hbit : ∀ j, (LHS.One ||| BitVec.twoPow w i).getLsbD j =
      (LHS.One.getLsbD j || decide (i = j)) := by
    intro j
    rw [BitVec.getLsbD_or, BitVec.getLsbD_twoPow, decide_eq_true hi, Bool.true_and]
  refine ⟨LHS.One ||| BitVec.twoPow w i, mem_iff.mpr fun j => ?_, ?_⟩
  · rw [hbit]
    refine ⟨fun hzero => ?_, fun hone => by rw [hone, Bool.true_or]⟩
    rw [Bool.or_eq_false_iff, decide_eq_false_iff_not]
    refine ⟨Bool.eq_false_of_not_eq_true fun hone => ?_, ?_⟩
    · exact Bool.false_ne_true ((hasConflict_eq_false_iff.mp hL j hone).symm.trans hzero)
    · rintro rfl
      exact Bool.false_ne_true (hunknown.1.symm.trans hzero)
  · have hcarry : BitVec.carry i (LHS.One ||| BitVec.twoPow w i) r c =
        BitVec.carry i LHS.One r c := by
      apply carry_congr
      intro j hj
      rw [hbit, decide_eq_false (Nat.ne_of_gt hj), Bool.or_false]
    rw [getLsbD_addFlag _ _ _ hi, getLsbD_addFlag _ _ _ hi, hcarry, hbit, getMinValue, hunknown.2,
      decide_eq_true rfl, Bool.false_or]
    cases r.getLsbD i ^^ BitVec.carry i LHS.One r c <;> decide

theorem exists_sums_differ (hi : i < w) (hL : LHS.hasConflict = false)
    (hR : RHS.hasConflict = false) (hflags : (CarryZero && CarryOne) = false)
    (hunknown : (knownOfSum LHS RHS CarryZero CarryOne).getLsbD i = false) :
    ∃ l ∈ LHS, ∃ r ∈ RHS, ∃ c, Admits CarryZero CarryOne c ∧
      ∃ l' ∈ LHS, ∃ r' ∈ RHS, ∃ c', Admits CarryZero CarryOne c' ∧
        (addFlag (l + r) c).getLsbD i ≠ (addFlag (l' + r') c').getLsbD i := by
  have hminL := getMinValue_mem hL
  have hminR := getMinValue_mem hR
  have hmin := admits_min hflags
  by_cases hlk : (LHS.Zero.getLsbD i || LHS.One.getLsbD i) = true
  · by_cases hrk : (RHS.Zero.getLsbD i || RHS.One.getLsbD i) = true
    · -- both operand bits are known, so the extreme carries differ
      refine ⟨_, getMaxValue_mem hL, _, getMaxValue_mem hR, _, admits_max hflags,
        _, hminL, _, hminR, _, hmin, ?_⟩
      rw [getLsbD_knownOfSum hi, hlk, hrk, Bool.true_and, Bool.true_and, Bool.or_eq_false_iff,
        Bool.not_eq_false'] at hunknown
      rw [getLsbD_addFlag _ _ _ hi, getLsbD_addFlag _ _ _ hi,
        getLsbD_of_known (getMaxValue_mem hL) hlk, getLsbD_of_known (getMaxValue_mem hR) hrk,
        hunknown.1, hunknown.2, getMinValue, getMinValue]
      cases LHS.One.getLsbD i <;> cases RHS.One.getLsbD i <;> decide
    · rw [Bool.not_eq_true] at hrk
      obtain ⟨r, hr, hne⟩ := sum_flips hi hR hrk LHS.getMinValue CarryOne
      rw [BitVec.add_comm r, BitVec.add_comm RHS.getMinValue] at hne
      exact ⟨_, hminL, r, hr, _, hmin, _, hminL, _, hminR, _, hmin, hne⟩
  · rw [Bool.not_eq_true] at hlk
    obtain ⟨l, hl, hne⟩ := sum_flips hi hL hlk RHS.getMinValue CarryOne
    exact ⟨l, hl, _, hminR, _, hmin, _, hminL, _, hminR, _, hmin, hne⟩

theorem computeForAddCarryFlags_exact (hL : LHS.hasConflict = false)
    (hR : RHS.hasConflict = false) (hflags : (CarryZero && CarryOne) = false) :
    ∃ K, computeForAddCarryFlags LHS RHS CarryZero CarryOne = some K ∧ ∀ i < w,
      (K.Zero.getLsbD i = true ↔ ∀ l ∈ LHS, ∀ r ∈ RHS, ∀ c, Admits CarryZero CarryOne c →
        (addFlag (l + r) c).getLsbD i = false) ∧
      (K.One.getLsbD i = true ↔ ∀ l ∈ LHS, ∀ r ∈ RHS, ∀ c, Admits CarryZero CarryOne c →
        (addFlag (l + r) c).getLsbD i = true) := by
  have hagree : ∀ i < w, (knownOfSum LHS RHS CarryZero CarryOne).getLsbD i = true →
      (possibleSumZero LHS RHS CarryZero).getLsbD i =
        (possibleSumOne LHS RHS CarryOne).getLsbD i := fun i hi hknown =>
    sum_of_known hi hknown (getMaxValue_mem hL) (getMaxValue_mem hR) (admits_max hflags)
  have hassert : possibleSumZero LHS RHS CarryZero &&& knownOfSum LHS RHS CarryZero CarryOne =
      possibleSumOne LHS RHS CarryOne &&& knownOfSum LHS RHS CarryZero CarryOne := by
    apply BitVec.eq_of_getLsbD_eq
    intro i hi
    rw [BitVec.getLsbD_and, BitVec.getLsbD_and]
    cases hknown : (knownOfSum LHS RHS CarryZero CarryOne).getLsbD i
    · rw [Bool.and_false, Bool.and_false]
    · rw [hagree i hi hknown]
  refine ⟨_, by
    rw [computeForAddCarryFlags, if_neg (by rw [hflags]; exact Bool.false_ne_true)]
    exact if_neg (not_not_intro hassert), fun i hi => ?_⟩
  simp only [BitVec.getLsbD_and, BitVec.getLsbD_not, decide_eq_true hi, Bool.true_and]
  cases hknown : (knownOfSum LHS RHS CarryZero CarryOne).getLsbD i
  · obtain ⟨l, hl, r, hr, c, hc, l', hl', r', hr', c', hc', hne⟩ :=
      exists_sums_differ hi hL hR hflags hknown
    rw [Bool.and_false, Bool.and_false, eq_false Bool.false_ne_true, false_iff, false_iff]
    exact ⟨fun h => hne ((h l hl r hr c hc).trans (h l' hl' r' hr' c' hc').symm),
      fun h => hne ((h l hl r hr c hc).trans (h l' hl' r' hr' c' hc').symm)⟩
  · rw [hagree i hi hknown, Bool.and_true, Bool.and_true, Bool.not_eq_true']
    refine ⟨⟨fun h l hl r hr c hc => (sum_of_known hi hknown hl hr hc).trans h, fun h => ?_⟩,
      ⟨fun h l hl r hr c hc => (sum_of_known hi hknown hl hr hc).trans h, fun h => ?_⟩⟩
    · exact h _ (getMinValue_mem hL) _ (getMinValue_mem hR) _ (admits_min hflags)
    · exact h _ (getMinValue_mem hL) _ (getMinValue_mem hR) _ (admits_min hflags)

theorem computeForAddCarryFlags_mem (hL : LHS.hasConflict = false)
    (hR : RHS.hasConflict = false) (hflags : (CarryZero && CarryOne) = false) :
    ∃ K, computeForAddCarryFlags LHS RHS CarryZero CarryOne = some K ∧ K.hasConflict = false ∧
      ∀ l ∈ LHS, ∀ r ∈ RHS, ∀ c, Admits CarryZero CarryOne c → addFlag (l + r) c ∈ K := by
  obtain ⟨K, heq, hbits⟩ := computeForAddCarryFlags_exact hL hR hflags
  have hmem : ∀ l ∈ LHS, ∀ r ∈ RHS, ∀ c, Admits CarryZero CarryOne c → addFlag (l + r) c ∈ K :=
    fun l hl r hr c hc => mem_iff.mpr fun i =>
      ⟨fun h => (hbits i (BitVec.lt_of_getLsbD h)).1.mp h l hl r hr c hc,
        fun h => (hbits i (BitVec.lt_of_getLsbD h)).2.mp h l hl r hr c hc⟩
  exact ⟨K, heq, not_conflict_of_mem
    (hmem _ (getMinValue_mem hL) _ (getMinValue_mem hR) _ (admits_min hflags)), hmem⟩

end Sums

theorem swap_no_conflict {K : KnownBits w} (h : K.hasConflict = false) :
    K.swap.hasConflict = false := by
  rw [hasConflict, swap, BitVec.and_comm]
  exact h

theorem not_mem_swap {K : KnownBits w} {v : BitVec w} (h : v ∈ K) : ~~~v ∈ K.swap := by
  rw [mem_def] at h ⊢
  rw [BitVec.not_not]
  exact ⟨h.2, h.1⟩

theorem sub_borrow_eq (l r : BitVec w) (b : Bool) :
    l - r - BitVec.setWidth w (BitVec.ofBool b) = addFlag (l + ~~~r) (!b) := by
  have hone : BitVec.setWidth w 1#1 = 1#w := BitVec.eq_of_toNat_eq (by simp)
  have hflags : BitVec.setWidth w (BitVec.ofBool b) + BitVec.setWidth w (BitVec.ofBool !b) =
      1#w := by
    cases b <;> simp [hone]
  rw [addFlag, BitVec.not_eq_neg_add]
  linear_combination -hflags

theorem sub_eq_addFlag (l r : BitVec w) : l - r = addFlag (l + ~~~r) true := by
  have h := sub_borrow_eq l r false
  simpa using h

section Sign

variable {LHS RHS K : KnownBits w} {NSW : Bool}

theorem refineSign_mem {v : BitVec w} (h : v ∈ K)
    (hpos : NSW = true → LHS.isNonNegative = true → RHS.isNonNegative = true → v.msb = false)
    (hneg : NSW = true → LHS.isNegative = true → RHS.isNegative = true → v.msb = true) :
    v ∈ refineSign NSW LHS RHS K := by
  unfold refineSign
  split_ifs with hunknown hnsw hboth hboth'
  · rw [Bool.and_eq_true] at hboth
    exact mem_makeNonNegative h (hpos hnsw hboth.1 hboth.2)
  · rw [Bool.and_eq_true] at hboth'
    exact mem_makeNegative h (hneg hnsw hboth'.1 hboth'.2)
  all_goals exact h

theorem refineSign_no_conflict (h : K.hasConflict = false) :
    (refineSign NSW LHS RHS K).hasConflict = false := by
  unfold refineSign
  split_ifs with hunknown hnsw hboth hboth'
  · rw [Bool.and_eq_true, Bool.not_eq_true'] at hunknown
    exact makeNonNegative_no_conflict h hunknown.1
  · rw [Bool.and_eq_true, Bool.not_eq_true', Bool.not_eq_true'] at hunknown
    exact makeNegative_no_conflict h hunknown.2
  all_goals exact h

theorem sum_mem_refineSign (hl : l ∈ LHS) (hr : r ∈ RHS) (h : l + r ∈ K)
    (hfit : NSW = true → SignedFits w (l.toInt + r.toInt)) : l + r ∈ refineSign NSW LHS RHS K := by
  refine refineSign_mem h (fun hnsw hlz hrz => ?_) (fun hnsw hlo hro => ?_)
  · have hw := width_pos_of_msb hlz
    have hsum := (sadd_ov_spec hw l r).value (hfit hnsw)
    have hl0 := msb_of_isNonNegative hl hlz
    have hr0 := msb_of_isNonNegative hr hrz
    rw [BitVec.msb_eq_toInt, decide_eq_false_iff_not] at hl0 hr0 ⊢
    change (l + r).toInt = _ at hsum
    omega
  · have hw := width_pos_of_msb hlo
    have hsum := (sadd_ov_spec hw l r).value (hfit hnsw)
    have hl0 := msb_of_isNegative hl hlo
    have hr0 := msb_of_isNegative hr hro
    rw [BitVec.msb_eq_toInt, decide_eq_true_iff] at hl0 hr0 ⊢
    change (l + r).toInt = _ at hsum
    omega

theorem sub_mem_refineSign (hl : l ∈ LHS) (hr : r ∈ RHS) (h : l - r ∈ K)
    (hfit : NSW = true → SignedFits w (l.toInt - r.toInt)) :
    l - r ∈ refineSign NSW LHS RHS.swap K := by
  refine refineSign_mem h (fun hnsw hlz hrz => ?_) (fun hnsw hlo hro => ?_)
  · have hw := width_pos_of_msb hlz
    have hdiff := (ssub_ov_spec hw l r).value (hfit hnsw)
    have hl0 := msb_of_isNonNegative hl hlz
    have hr0 := msb_of_isNegative hr hrz
    rw [BitVec.msb_eq_toInt] at hl0 hr0 ⊢
    rw [decide_eq_false_iff_not] at hl0 ⊢
    rw [decide_eq_true_iff] at hr0
    change (l - r).toInt = _ at hdiff
    omega
  · have hw := width_pos_of_msb hlo
    have hdiff := (ssub_ov_spec hw l r).value (hfit hnsw)
    have hl0 := msb_of_isNegative hl hlo
    have hr0 := msb_of_isNonNegative hr hro
    rw [BitVec.msb_eq_toInt] at hl0 hr0 ⊢
    rw [decide_eq_true_iff] at hl0 ⊢
    rw [decide_eq_false_iff_not] at hr0
    change (l - r).toInt = _ at hdiff
    omega

end Sign

section Operations

variable {LHS RHS : KnownBits w}

theorem computeForAddSub_mem (Add NSW : Bool) (hL : LHS.hasConflict = false)
    (hR : RHS.hasConflict = false) :
    ∃ K, computeForAddSub Add NSW LHS RHS = some K ∧ K.hasConflict = false ∧
      ∀ l ∈ LHS, ∀ r ∈ RHS,
        (NSW = true → SignedFits w (if Add then l.toInt + r.toInt else l.toInt - r.toInt)) →
          (if Add then l + r else l - r) ∈ K := by
  cases Add
  · have hflags : (false && true) = false := rfl
    obtain ⟨K, heq, hconf, hmem⟩ := computeForAddCarryFlags_mem hL (swap_no_conflict hR) hflags
    refine ⟨refineSign NSW LHS RHS.swap K, by rw [computeForAddSub, heq]; rfl,
      refineSign_no_conflict hconf, fun l hl r hr hfit => sub_mem_refineSign hl hr ?_ hfit⟩
    rw [sub_eq_addFlag]
    exact hmem l hl _ (not_mem_swap hr) true ⟨fun h => h.symm, fun _ => rfl⟩
  · have hflags : (true && false) = false := rfl
    obtain ⟨K, heq, hconf, hmem⟩ := computeForAddCarryFlags_mem hL hR hflags
    refine ⟨refineSign NSW LHS RHS K, by rw [computeForAddSub, heq]; rfl,
      refineSign_no_conflict hconf, fun l hl r hr hfit => sum_mem_refineSign hl hr ?_ hfit⟩
    have h := hmem l hl r hr false ⟨fun _ => rfl, fun h => h⟩
    rw [addFlag] at h
    simpa using h

theorem admits_iff_mem {c : BitVec 1} :
    Admits (Carry.Zero != 0) (Carry.One != 0) (c.getLsbD 0) ↔ c ∈ Carry := by
  obtain ⟨Z, O⟩ := Carry
  rw [mem_def, Admits]
  revert Z O c
  decide

theorem ofBool_getLsbD_zero (c : BitVec 1) : BitVec.ofBool (c.getLsbD 0) = c := by
  revert c
  decide

theorem flags_of_no_conflict (h : Carry.hasConflict = false) :
    ((Carry.Zero != 0) && (Carry.One != 0)) = false := by
  obtain ⟨Z, O⟩ := Carry
  revert Z O
  decide

theorem computeForSubBorrow_mem {Borrow : KnownBits 1} (hL : LHS.hasConflict = false)
    (hR : RHS.hasConflict = false) (hB : Borrow.hasConflict = false) :
    ∃ K, computeForSubBorrow LHS RHS Borrow = some K ∧ K.hasConflict = false ∧
      ∀ l ∈ LHS, ∀ r ∈ RHS, ∀ b ∈ Borrow, l - r - BitVec.setWidth w b ∈ K := by
  have hflags := flags_of_no_conflict hB
  rw [Bool.and_comm] at hflags
  obtain ⟨K, heq, hconf, hmem⟩ :=
    computeForAddCarryFlags_mem hL (swap_no_conflict hR) hflags
  refine ⟨K, heq, hconf, fun l hl r hr b hb => ?_⟩
  obtain ⟨hzero, hone⟩ := admits_iff_mem.mpr hb
  rw [← ofBool_getLsbD_zero b, sub_borrow_eq]
  refine hmem l hl _ (not_mem_swap hr) _ ⟨fun h => ?_, fun h => ?_⟩
  · rw [hone h]
    rfl
  · rw [hzero h]
    rfl

theorem computeForAddCarry_exact (hL : LHS.hasConflict = false) (hR : RHS.hasConflict = false)
    (hC : Carry.hasConflict = false) :
    ∃ K, computeForAddCarry LHS RHS Carry = some K ∧ ∀ i < w,
      (K.Zero.getLsbD i = true ↔ ∀ l ∈ LHS, ∀ r ∈ RHS, ∀ c ∈ Carry,
        (l + r + BitVec.setWidth w c).getLsbD i = false) ∧
      (K.One.getLsbD i = true ↔ ∀ l ∈ LHS, ∀ r ∈ RHS, ∀ c ∈ Carry,
        (l + r + BitVec.setWidth w c).getLsbD i = true) := by
  obtain ⟨K, heq, hbits⟩ := computeForAddCarryFlags_exact hL hR (flags_of_no_conflict hC)
  have hcarries : ∀ P : BitVec 1 → Prop,
      (∀ c, Admits (Carry.Zero != 0) (Carry.One != 0) c → P (BitVec.ofBool c)) ↔
        ∀ c ∈ Carry, P c := by
    intro P
    refine ⟨fun h c hc => ?_, fun h c hc => h _ (admits_iff_mem.mp ?_)⟩
    · rw [← ofBool_getLsbD_zero c]
      exact h _ (admits_iff_mem.mpr hc)
    · cases c <;> exact hc
  refine ⟨K, heq, fun i hi => ⟨(hbits i hi).1.trans ?_, (hbits i hi).2.trans ?_⟩⟩
  · exact forall₄_congr fun l _ r _ =>
      hcarries fun c => (l + r + BitVec.setWidth w c).getLsbD i = false
  · exact forall₄_congr fun l _ r _ =>
      hcarries fun c => (l + r + BitVec.setWidth w c).getLsbD i = true

end Operations

theorem addition_exact (LHS RHS : KnownBits w) (Carry : KnownBits 1)
    (hL : LHS.hasConflict = false) (hR : RHS.hasConflict = false)
    (hC : Carry.hasConflict = false) :
    (∃ K, computeForAddCarry LHS RHS Carry = some K ∧ ∀ i < w,
      (K.Zero.getLsbD i = true ↔ ∀ l ∈ LHS, ∀ r ∈ RHS, ∀ c ∈ Carry,
        (l + r + BitVec.setWidth w c).getLsbD i = false) ∧
      (K.One.getLsbD i = true ↔ ∀ l ∈ LHS, ∀ r ∈ RHS, ∀ c ∈ Carry,
        (l + r + BitVec.setWidth w c).getLsbD i = true)) ∧
    (∀ Add NSW, ∃ K, computeForAddSub Add NSW LHS RHS = some K ∧ K.hasConflict = false ∧
      ∀ l ∈ LHS, ∀ r ∈ RHS,
        (NSW = true → SignedFits w (if Add then l.toInt + r.toInt else l.toInt - r.toInt)) →
          (if Add then l + r else l - r) ∈ K) ∧
    ∃ K, computeForSubBorrow LHS RHS Carry = some K ∧ K.hasConflict = false ∧
      ∀ l ∈ LHS, ∀ r ∈ RHS, ∀ b ∈ Carry, l - r - BitVec.setWidth w b ∈ K :=
  ⟨computeForAddCarry_exact hL hR hC, fun Add NSW => computeForAddSub_mem Add NSW hL hR,
    computeForSubBorrow_mem hL hR hC⟩

/-- Bytes `000000??` and `0000001?`, with a carry that may be anything. -/
theorem addition_exact_byte :
    (⟨0xFC, 0⟩ : KnownBits 8).hasConflict = false ∧ (⟨0xFC, 2⟩ : KnownBits 8).hasConflict = false ∧
      ∃ K, computeForSubBorrow (⟨0xFC, 0⟩ : KnownBits 8) ⟨0xFC, 2⟩ (unknown 1) = some K ∧
        K.hasConflict = false ∧
        ∀ l ∈ (⟨0xFC, 0⟩ : KnownBits 8), ∀ r ∈ (⟨0xFC, 2⟩ : KnownBits 8), ∀ b ∈ unknown 1,
          l - r - BitVec.setWidth 8 b ∈ K :=
  ⟨by decide, by decide,
    (addition_exact ⟨0xFC, 0⟩ ⟨0xFC, 2⟩ (unknown 1) (by decide) (by decide) (by decide)).2.2⟩

end SmlnjLlvm.KnownBits
