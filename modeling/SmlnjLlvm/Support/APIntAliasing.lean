import SmlnjLlvm.Support.APIntNegate

/-!
# Division with shared objects

The operands and the results of a division are objects of a store, and a result
may be the same object as an operand. A divisor of one is the only case in which
results are assigned before the operands have been read for the last time: the
source goes on after it.
-/

namespace SmlnjLlvm.Support.APInt

variable {Loc : Type} [DecidableEq Loc]

/-- What follows the test for a divisor of one. Memory is read before it is written in `divide`. -/
def udivremTail (getMemory getMemory' : Words64) (σ : Loc → APInt)
    (LHS RHS Quotient Remainder : Loc) (BitWidth lhsWords rhsWords : Nat) :
    Option (Loc → APInt) :=
  if lhsWords < rhsWords ∨ (σ LHS).ult (σ RHS) then
    let σ := Function.update σ Remainder (σ LHS)
    some (Function.update σ Quotient (ofWord BitWidth 0))
  else if (σ LHS).eq (σ RHS) then
    let σ := Function.update σ Quotient (ofWord BitWidth 1)
    some (Function.update σ Remainder (ofWord BitWidth 0))
  else
    let σ := Function.update σ Quotient (reallocate getMemory BitWidth (σ Quotient))
    let σ := Function.update σ Remainder (reallocate getMemory' BitWidth (σ Remainder))
    if lhsWords = 1 then
      let lhsValue := (σ LHS).pVal 0
      let rhsValue := (σ RHS).pVal 0
      -- a division of machine words by zero has no result
      if rhsValue = 0 then none
      else
        let σ := Function.update σ Quotient (assignWord (σ Quotient) (lhsValue / rhsValue))
        some (Function.update σ Remainder (assignWord (σ Remainder) (lhsValue % rhsValue)))
    else do
      let (quotient, remainder) ← divide (σ LHS).pVal lhsWords (σ RHS).pVal rhsWords
        (some (σ Quotient).pVal) (some (σ Remainder).pVal)
      let σ := Function.update σ Quotient
        { σ Quotient with
          pVal := clearWords (quotient.getD (σ Quotient).pVal) lhsWords (getNumWordsOf BitWidth) }
      some (Function.update σ Remainder
        { σ Remainder with
          pVal := clearWords (remainder.getD (σ Remainder).pVal) rhsWords
            (getNumWordsOf BitWidth) })

/-- `APInt::udivrem` on the objects of a store. -/
def udivremAt (getMemory getMemory' : Words64) (σ : Loc → APInt)
    (LHS RHS Quotient Remainder : Loc) : Option (Loc → APInt) := do
  guard ((σ LHS).BitWidth = (σ RHS).BitWidth)
  let BitWidth := (σ LHS).BitWidth
  if (σ LHS).isSingleWord then
    guard ((σ RHS).pVal 0 ≠ 0)
    let QuotVal := (σ LHS).pVal 0 / (σ RHS).pVal 0
    let RemVal := (σ LHS).pVal 0 % (σ RHS).pVal 0
    let σ := Function.update σ Quotient (ofWord BitWidth QuotVal)
    return Function.update σ Remainder (ofWord BitWidth RemVal)
  let lhsWords := getNumWordsOf (σ LHS).getActiveBits
  let rhsBits := (σ RHS).getActiveBits
  let rhsWords := getNumWordsOf rhsBits
  guard (rhsWords ≠ 0)
  if lhsWords = 0 then
    let σ := Function.update σ Quotient (ofWord BitWidth 0)
    return Function.update σ Remainder (ofWord BitWidth 0)
  let σ :=
    if rhsBits = 1 then
      let σ := Function.update σ Quotient (σ LHS)
      Function.update σ Remainder (ofWord BitWidth 0)
    else σ
  udivremTail getMemory getMemory' σ LHS RHS Quotient Remainder BitWidth lhsWords rhsWords

/-- An object of the store, or a temporary that holds a negated operand. -/
inductive Operand (Loc : Type) where
  | var (x : Loc)
  | negLHS
  | negRHS
  deriving DecidableEq

def withTemps (σ : Loc → APInt) (LHS RHS : Loc) : Operand Loc → APInt
  | .var x => σ x
  | .negLHS => negate (σ LHS)
  | .negRHS => negate (σ RHS)

def negateAt (σ : Loc → APInt) (x : Loc) : Loc → APInt := Function.update σ x (negate (σ x))

/-- `APInt::sdivrem` on the objects of a store. -/
def sdivremAt (getMemory getMemory' : Words64) (σ : Loc → APInt)
    (LHS RHS Quotient Remainder : Loc) : Option (Loc → APInt) :=
  let udivrem := fun L R =>
    (udivremAt getMemory getMemory' (withTemps σ LHS RHS) L R (.var Quotient) (.var Remainder)).map
      fun (τ : Operand Loc → APInt) x => τ (.var x)
  if (σ LHS).isNegative then
    if (σ RHS).isNegative then
      (udivrem .negLHS .negRHS).map fun σ => negateAt σ Remainder
    else
      (udivrem .negLHS (.var RHS)).map fun σ => negateAt (negateAt σ Quotient) Remainder
  else if (σ RHS).isNegative then
    (udivrem (.var LHS) .negRHS).map fun σ => negateAt σ Quotient
  else udivrem (.var LHS) (.var RHS)

/-- Two objects of one width and value. -/
structure SameInt (A B : APInt) : Prop where
  left : A.Valid
  right : B.Valid
  width : A.BitWidth = B.BitWidth
  val : A.val = B.val

theorem Represents.same {A B : APInt} {BitWidth x : Nat} (hA : A.Represents BitWidth x)
    (hB : B.Represents BitWidth x) : SameInt A B :=
  ⟨hA.valid, hB.valid, hA.width.trans hB.width.symm, hA.val_eq.trans hB.val_eq.symm⟩

theorem SameInt.negate {A B : APInt} (h : SameInt A B) : SameInt (negate A) (negate B) := by
  obtain ⟨hA, hwA, hvA⟩ := negate_spec h.left
  obtain ⟨hB, hwB, hvB⟩ := negate_spec h.right
  exact ⟨hA, hB, by rw [hwA, hwB, h.width], by rw [hvA, hvB, h.width, h.val]⟩

theorem reallocate_self {A : APInt} {BitWidth : Nat} (h : A.BitWidth = BitWidth)
    (getMemory : Words64) : reallocate getMemory BitWidth A = A := by
  rw [← h]
  exact if_pos rfl

theorem Operands.one_active {A B : APInt} (h : Operands A B) (hmulti : ¬A.isSingleWord = true)
    (hone : B.val = 1) : getNumWordsOf B.getActiveBits = 1 := by
  rw [(activeBits_eq_one h.right (mt h.single_iff.mp hmulti)).mpr hone]
  rfl

theorem Operands.left_active {A B : APInt} (h : Operands A B) (hmulti : ¬A.isSingleWord = true)
    (hne : A.val ≠ 0) : 1 ≤ getNumWordsOf A.getActiveBits :=
  Nat.one_le_iff_ne_zero.mpr (mt (activeWords_spec h.left hmulti).2.2.mp hne)

/-- The results of a division are in their objects. -/
structure Divided (σ : Loc → APInt) (Quotient Remainder : Loc) (BitWidth a b : Nat) : Prop where
  quotient : (σ Quotient).Represents BitWidth (a / b)
  remainder : (σ Remainder).Represents BitWidth (a % b)

/-! ## After the test for one -/

section Tail

variable {σ : Loc → APInt} {l r q m : Loc} {getMemory getMemory' : Words64}
  {BitWidth lhsWords rhsWords : Nat}

theorem udivremTail_less (hwidth : (σ l).BitWidth = (σ r).BitWidth)
    (hless : (σ l).val < (σ r).val) :
    udivremTail getMemory getMemory' σ l r q m BitWidth lhsWords rhsWords =
      some (Function.update (Function.update σ m (σ l)) q (ofWord BitWidth 0)) :=
  if_pos (Or.inr ((ult_iff hwidth).mpr hless))

variable (getMemory getMemory' BitWidth) in
theorem udivremTail_equal (hwidth : (σ l).BitWidth = (σ r).BitWidth)
    (heq : (σ l).val = (σ r).val) (hwords : rhsWords ≤ lhsWords) :
    udivremTail getMemory getMemory' σ l r q m BitWidth lhsWords rhsWords =
      some (Function.update (Function.update σ q (ofWord BitWidth 1)) m (ofWord BitWidth 0)) := by
  have hless : ¬(lhsWords < rhsWords ∨ (σ l).ult (σ r) = true) := by
    rw [ult_iff hwidth]
    omega
  unfold udivremTail
  rw [if_neg hless, if_pos ((eq_iff hwidth).mpr heq)]

variable (getMemory getMemory') in
theorem reallocated (hqm : q ≠ m) (hl : (σ l).BitWidth = BitWidth) :
    ∃ τ, τ = Function.update (Function.update σ q (reallocate getMemory BitWidth (σ q))) m
        (reallocate getMemory' BitWidth
          (Function.update σ q (reallocate getMemory BitWidth (σ q)) m)) ∧
      τ l = σ l ∧ (τ q).BitWidth = BitWidth ∧ (τ m).BitWidth = BitWidth := by
  refine ⟨_, rfl, ?_, ?_, ?_⟩
  · by_cases hm : l = m
    · rw [← hm, Function.update_self, Function.update_of_ne (fun h => hqm (h.symm.trans hm)),
        reallocate_self hl]
    · rw [Function.update_of_ne hm]
      by_cases hq : l = q
      · rw [← hq, Function.update_self, reallocate_self hl]
      · rw [Function.update_of_ne hq]
  · rw [Function.update_of_ne hqm, Function.update_self, reallocate_width]
  · rw [Function.update_self, reallocate_width]

theorem udivremTail_spec (h : Operands (σ l) (σ r)) (hmulti : ¬(σ l).isSingleWord = true)
    (hqm : q ≠ m) (getMemory getMemory' : Words64) :
    ∃ σ', udivremTail getMemory getMemory' σ l r q m (σ l).BitWidth
        (getNumWordsOf (σ l).getActiveBits) (getNumWordsOf (σ r).getActiveBits) = some σ' ∧
      Divided σ' q m (σ l).BitWidth (σ l).val (σ r).val := by
  have hwide := h.left.width_lt
  have hmq : m ≠ q := fun heq => hqm heq.symm
  have hnull : (ofWord (σ l).BitWidth 0).Represents (σ l).BitWidth 0 :=
    Represents.ofWord hwide (Nat.two_pow_pos _)
  by_cases hless : (σ l).val < (σ r).val
  · refine ⟨_, udivremTail_less h.width hless, ?_, ?_⟩
    · rw [Function.update_self, Nat.div_eq_of_lt hless]
      exact hnull
    · rw [Function.update_of_ne hmq, Function.update_self, Nat.mod_eq_of_lt hless]
      exact h.left.represents
  have hle := Nat.not_lt.mp hless
  have hwords := activeWords_mono h.right (mt h.single_iff.mp hmulti) h.left hmulti hle
  by_cases heq : (σ l).val = (σ r).val
  · have hone : (1 : BitVec 64).toNat < 2 ^ (σ l).BitWidth := by
      rw [isSingleWord_iff] at hmulti
      exact Nat.one_lt_two_pow (by omega)
    refine ⟨_, udivremTail_equal _ _ _ h.width heq hwords, ?_, ?_⟩
    · rw [Function.update_of_ne hqm, Function.update_self, heq, Nat.div_self h.pos]
      exact Represents.ofWord hwide hone
    · rw [Function.update_self, heq, Nat.mod_self]
      exact hnull
  obtain ⟨τ, hτ, hl, hq, hm⟩ := reallocated getMemory getMemory' hqm
    (rfl : (σ l).BitWidth = (σ l).BitWidth)
  obtain ⟨_, rfl, hr, -, -⟩ := reallocated getMemory getMemory' hqm
    h.width.symm
  unfold udivremTail
  rw [if_neg (mt (h.less_iff hmulti).mp hless), if_neg (mt (eq_iff h.width).mp heq)]
  simp only [← hτ, hl, hr]
  by_cases hword : getNumWordsOf (σ l).getActiveBits = 1
  · obtain ⟨hA, hB⟩ := h.one_word hmulti hle hword
    have hne : (σ r).pVal 0 ≠ 0 := by
      rw [toNat_ne_zero, ← hB]
      exact h.pos
    rw [isSingleWord_iff, Nat.not_le] at hmulti
    rw [if_pos hword, if_neg hne]
    refine ⟨_, rfl, ?_, ?_⟩
    · rw [Function.update_of_ne hqm, Function.update_self, hA, hB, ← BitVec.toNat_udiv]
      exact Represents.assignWord hq hwide hmulti
    · rw [Function.update_self, Function.update_of_ne hmq, hA, hB, ← BitVec.toNat_umod]
      exact Represents.assignWord hm hwide hmulti
  · rw [if_neg hword]
    obtain ⟨quot, rem, hrun, hquot, hrem⟩ :=
      h.divide_active hmulti hle (some (τ q).pVal) (some (τ m).pVal)
    rw [hrun]
    refine ⟨_, rfl, ?_, ?_⟩
    · rw [Function.update_of_ne hqm, Function.update_self, hq]
      refine h.quotient hmulti ?_ fun i hi hlt => clearWords_above _ hi hlt
      rw [wordsVal_clearWords]
      exact (hquot _).1
    · rw [Function.update_self, Function.update_of_ne hmq, hm]
      refine h.remainder hmulti ?_ fun i hi hlt => clearWords_above _ hi hlt
      rw [wordsVal_clearWords]
      exact (hrem _).1

theorem divide_zero (LHS RHS : Words64) (lhsWords : Nat) (Quotient Remainder : Option Words64)
    (hzero : RHS 0 = 0) : divide LHS lhsWords RHS 1 Quotient Remainder = none := by
  obtain ⟨hlo, hhi⟩ := (splitWords_digits RHS 1).1 0 Nat.one_pos
  rw [hzero] at hlo hhi
  have hstrip : ∀ m, stripDivisor (splitWords RHS 1) 2 (2, m) = (0, m + 1 + 1) := by
    intro m
    have h0 : splitWords RHS 1 0 = 0 := hlo
    have h1 : splitWords RHS 1 1 = 0 := hhi
    rw [stripDivisor, if_pos h1, stripDivisor, if_pos h0, stripDivisor]
  unfold divide guard
  by_cases hwords : 1 ≤ lhsWords
  · rw [if_pos hwords]
    simp only [Nat.one_mul, hstrip, Option.pure_def, Option.bind_eq_bind, Option.bind_some]
    cases stripDividend _ _ _ with
    | none => rfl
    | some m => rfl
  · rw [if_neg hwords]
    rfl

variable (getMemory getMemory') in
theorem udivremTail_cleared (hqm : q ≠ m) (hwidth : (σ l).BitWidth = (σ r).BitWidth)
    (hzero : (σ r).val = 0) (hpos : 0 < (σ l).val) (hwords : 1 ≤ lhsWords) :
    udivremTail getMemory getMemory' σ l r q m (σ l).BitWidth lhsWords 1 = none := by
  have hword : (σ r).pVal 0 = 0 := by
    apply eq_zero_of_wordsVal_lt (n := (σ r).numWords) (numWords_spec _).1
    rw [pow_zero]
    exact Nat.lt_one_iff.mpr hzero
  have hless : ¬(lhsWords < 1 ∨ (σ l).ult (σ r) = true) := by
    rw [ult_iff hwidth]
    omega
  have hne : ¬(σ l).eq (σ r) = true := by
    rw [eq_iff hwidth]
    omega
  obtain ⟨τ, hτ, hr, -, -⟩ := reallocated getMemory getMemory' hqm
    hwidth.symm
  unfold udivremTail
  rw [if_neg hless, if_neg hne]
  simp only [← hτ, hr, hword]
  by_cases hone : lhsWords = 1
  · rw [if_pos hone, if_pos trivial]
  · rw [if_neg hone, divide_zero _ _ _ _ _ hword]
    rfl

end Tail

/-! ## The unsigned division -/

/--
The branch for a divisor of one assigns a result to an operand that is read again:
the remainder to either operand, or the quotient to the divisor.
-/
def Clobbers (BitWidth a b : Nat) (LHS RHS Quotient Remainder : Loc) : Prop :=
  64 < BitWidth ∧ b = 1 ∧ a ≠ 0 ∧ LHS ≠ RHS ∧
    (Remainder = LHS ∨ Remainder = RHS ∨ Quotient = RHS ∧ a ≠ 1)

section Unsigned

variable {σ : Loc → APInt} {l r q m : Loc}

/-- The store after the branch for a divisor of one. -/
def afterOne (σ : Loc → APInt) (LHS Quotient Remainder : Loc) : Loc → APInt :=
  Function.update (Function.update σ Quotient (σ LHS)) Remainder (ofWord (σ LHS).BitWidth 0)

theorem afterOne_of_ne (hm : l ≠ m) : afterOne σ l q m l = σ l := by
  unfold afterOne
  rw [Function.update_of_ne hm]
  by_cases hq : l = q
  · rw [← hq, Function.update_self]
  · rw [Function.update_of_ne hq]

theorem udivremAt_multi (h : Operands (σ l) (σ r)) (hmulti : ¬(σ l).isSingleWord = true)
    (hne : (σ l).val ≠ 0) (getMemory getMemory' : Words64) :
    udivremAt getMemory getMemory' σ l r q m =
      udivremTail getMemory getMemory' (if (σ r).val = 1 then afterOne σ l q m else σ) l r q m
        (σ l).BitWidth (getNumWordsOf (σ l).getActiveBits)
        (getNumWordsOf (σ r).getActiveBits) := by
  have hzero : getNumWordsOf (σ l).getActiveBits ≠ 0 :=
    mt (activeWords_spec h.left hmulti).2.2.mp hne
  have hone := activeBits_eq_one h.right (mt h.single_iff.mp hmulti)
  unfold udivremAt guard
  rw [if_pos h.width]
  simp only [Option.pure_def, Option.bind_eq_bind, Option.bind_some]
  rw [if_neg hmulti, if_pos (h.rhsWords_ne_zero hmulti), Option.bind_some, if_neg hzero]
  by_cases hval : (σ r).val = 1
  · rw [if_pos (hone.mpr hval), if_pos hval]
    rfl
  · rw [if_neg (mt hone.mp hval), if_neg hval]

theorem udivremAt_one (h : Operands (σ l) (σ r)) (hmulti : ¬(σ l).isSingleWord = true)
    (hqm : q ≠ m) (hne : (σ l).val ≠ 0) (hone : (σ r).val = 1)
    (hkeep : ¬Clobbers (σ l).BitWidth (σ l).val (σ r).val l r q m)
    (getMemory getMemory' : Words64) :
    ∃ σ', udivremAt getMemory getMemory' σ l r q m = some σ' ∧
      Divided σ' q m (σ l).BitWidth (σ l).val (σ r).val := by
  have hwide : 64 < (σ l).BitWidth := by
    rw [isSingleWord_iff] at hmulti
    omega
  have hrhs := h.one_active hmulti hone
  have hlhs := h.left_active hmulti hne
  rw [udivremAt_multi h hmulti hne, if_pos hone]
  by_cases hlr : l = r
  · by_cases hlm : l = m
    · -- Both operands have become zero, and are equal.
      have hequal := udivremTail_equal (σ := afterOne σ l q m) (l := l) (r := r) (q := q)
        (m := m) getMemory getMemory' (σ l).BitWidth (by rw [hlr]) (by rw [hlr]) (hrhs.trans_le hlhs)
      refine ⟨_, hequal, ?_, ?_⟩
      · rw [Function.update_of_ne hqm, Function.update_self, hone, Nat.div_one, hlr, hone]
        exact Represents.ofWord h.right.width_lt (Nat.one_lt_two_pow (by rw [← hlr]; omega))
      · rw [Function.update_self, hone, Nat.mod_one]
        exact Represents.ofWord h.left.width_lt (Nat.two_pow_pos _)
    · have hl := afterOne_of_ne (σ := σ) (q := q) hlm
      obtain ⟨σ', hrun, hdiv⟩ := udivremTail_spec (σ := afterOne σ l q m) (l := l) (r := l)
        (by rw [hl]; exact hlr ▸ h) (by rw [hl]; exact hmulti) hqm getMemory getMemory'
      rw [hl] at hrun hdiv
      subst hlr
      exact ⟨σ', hrun, hdiv⟩
  · have hcases : l ≠ m ∧ r ≠ m ∧ (q = r → (σ l).val = 1) := by
      refine ⟨fun heq => hkeep ⟨hwide, hone, hne, hlr, Or.inl heq.symm⟩,
        fun heq => hkeep ⟨hwide, hone, hne, hlr, Or.inr (Or.inl heq.symm)⟩, fun heq => ?_⟩
      by_contra hval
      exact hkeep ⟨hwide, hone, hne, hlr, Or.inr (Or.inr ⟨heq, hval⟩)⟩
    obtain ⟨hlm, hrm, hqr⟩ := hcases
    have hl := afterOne_of_ne (σ := σ) (q := q) hlm
    have hr : (afterOne σ l q m r).Valid ∧ (σ l).BitWidth = (afterOne σ l q m r).BitWidth ∧
        (afterOne σ l q m r).val = 1 := by
      unfold afterOne
      rw [Function.update_of_ne hrm]
      by_cases hq : r = q
      · rw [← hq, Function.update_self]
        exact ⟨h.left, rfl, hqr hq.symm⟩
      · rw [Function.update_of_ne hq]
        exact ⟨h.right, h.width, hone⟩
    have hops : Operands (afterOne σ l q m l) (afterOne σ l q m r) := by
      rw [hl]
      exact ⟨h.left, hr.1, hr.2.1, by rw [hr.2.2]; exact Nat.one_pos⟩
    have hmulti' : ¬(afterOne σ l q m l).isSingleWord = true := by
      rw [hl]
      exact hmulti
    obtain ⟨σ', hrun, hdiv⟩ := udivremTail_spec hops hmulti' hqm getMemory getMemory'
    rw [hl, hops.one_active hmulti' hr.2.2] at hrun
    rw [hl, hr.2.2] at hdiv
    rw [hrhs, hone]
    exact ⟨σ', hrun, hdiv⟩

theorem udivremAt_spec (h : Operands (σ l) (σ r)) (hqm : q ≠ m)
    (hkeep : ¬Clobbers (σ l).BitWidth (σ l).val (σ r).val l r q m)
    (getMemory getMemory' : Words64) :
    ∃ σ', udivremAt getMemory getMemory' σ l r q m = some σ' ∧
      Divided σ' q m (σ l).BitWidth (σ l).val (σ r).val := by
  have hwide := h.left.width_lt
  by_cases hsingle : (σ l).isSingleWord = true
  · have hdiv : (σ l).val / (σ r).val < 2 ^ (σ l).BitWidth :=
      Nat.div_lt_of_lt h.left.val_lt
    have hmod : (σ l).val % (σ r).val < 2 ^ (σ l).BitWidth :=
      Nat.mod_lt_of_lt h.left.val_lt
    obtain ⟨hA, hB, hne⟩ := h.single hsingle
    unfold udivremAt guard
    rw [if_pos h.width]
    simp only [Option.pure_def, Option.bind_eq_bind, Option.bind_some]
    rw [if_pos hsingle, if_pos hne]
    refine ⟨_, rfl, ?_, ?_⟩
    · rw [Function.update_of_ne hqm, Function.update_self]
      rw [hA, hB, ← BitVec.toNat_udiv] at hdiv ⊢
      exact Represents.ofWord hwide hdiv
    · rw [Function.update_self]
      rw [hA, hB, ← BitVec.toNat_umod] at hmod ⊢
      exact Represents.ofWord hwide hmod
  by_cases hzero : (σ l).val = 0
  · have hwords := (activeWords_spec h.left hsingle).2.2.mpr hzero
    have hnull : (ofWord (σ l).BitWidth 0).Represents (σ l).BitWidth 0 :=
      Represents.ofWord hwide (Nat.two_pow_pos _)
    unfold udivremAt guard
    rw [if_pos h.width]
    simp only [Option.pure_def, Option.bind_eq_bind, Option.bind_some]
    rw [if_neg hsingle, if_pos (h.rhsWords_ne_zero hsingle), Option.bind_some, if_pos hwords]
    refine ⟨_, rfl, ?_, ?_⟩
    · rw [Function.update_of_ne hqm, Function.update_self, hzero, Nat.zero_div]
      exact hnull
    · rw [Function.update_self, hzero, Nat.zero_mod]
      exact hnull
  by_cases hone : (σ r).val = 1
  · exact udivremAt_one h hsingle hqm hzero hone hkeep getMemory getMemory'
  · rw [udivremAt_multi h hsingle hzero, if_neg hone]
    exact udivremTail_spec h hsingle hqm getMemory getMemory'

theorem udivremAt_clobbered (h : Operands (σ l) (σ r)) (hqm : q ≠ m)
    (hclobber : Clobbers (σ l).BitWidth (σ l).val (σ r).val l r q m)
    {getMemory getMemory' : Words64} {σ' : Loc → APInt}
    (hrun : udivremAt getMemory getMemory' σ l r q m = some σ') :
    (σ' q).Valid ∧ (σ' q).BitWidth = (σ l).BitWidth ∧
      (σ' q).val ≠ (σ l).val / (σ r).val := by
  obtain ⟨hwide, hone, hne, hlr, hcases⟩ := hclobber
  have hmulti : ¬(σ l).isSingleWord = true := by
    rw [isSingleWord_iff]
    omega
  have hrhs := h.one_active hmulti hone
  have hlhs := h.left_active hmulti hne
  have hword : ∀ v : BitVec 64, v.toNat ≤ 1 → (ofWord (σ l).BitWidth v).Represents
      (σ l).BitWidth v.toNat := fun v hv =>
    Represents.ofWord h.left.width_lt (Nat.lt_of_le_of_lt hv (Nat.one_lt_two_pow (by omega)))
  have hnull := hword 0 (Nat.zero_le 1)
  have hzero : (ofWord (σ l).BitWidth 0).val = 0 := hnull.val_eq
  have hcleared : (afterOne σ l q m m).val = 0 ∧
      (afterOne σ l q m m).BitWidth = (σ l).BitWidth := by
    unfold afterOne
    rw [Function.update_self]
    exact ⟨hzero, hnull.width⟩
  rw [udivremAt_multi h hmulti hne, if_pos hone] at hrun
  rw [hone, Nat.div_one]
  by_cases hlm : m = l
  · -- The dividend has become zero, below the divisor.
    rw [hlm] at hcleared
    have hr : (σ l).BitWidth = (afterOne σ l q m r).BitWidth ∧ 0 < (afterOne σ l q m r).val := by
      unfold afterOne
      rw [Function.update_of_ne (fun heq => hlr (heq.trans hlm).symm)]
      by_cases hq : r = q
      · rw [← hq, Function.update_self]
        exact ⟨rfl, Nat.pos_of_ne_zero hne⟩
      · rw [Function.update_of_ne hq]
        exact ⟨h.width, h.pos⟩
    rw [hlm] at hrun hr
    rw [udivremTail_less (hcleared.2.trans hr.1) (by rw [hcleared.1]; exact hr.2),
      Option.some.injEq] at hrun
    rw [← hrun, Function.update_self]
    exact ⟨hnull.valid, hnull.width, fun heq => hne (heq.symm.trans hzero)⟩
  have hl := afterOne_of_ne (σ := σ) (q := q) (Ne.symm hlm)
  by_cases hrm : m = r
  · rw [hrm] at hcleared hl hrun
    rw [hrhs] at hrun
    have hstop := udivremTail_cleared (σ := afterOne σ l q r) (l := l) (r := r) (q := q) (m := r)
      getMemory getMemory'
      (fun heq => hqm (heq.trans hrm.symm)) (by rw [hl, hcleared.2]) hcleared.1
      (by rw [hl]; exact Nat.pos_of_ne_zero hne) hlhs
    rw [hl] at hstop
    rw [hstop] at hrun
    cases hrun
  · obtain ⟨hqr, hval⟩ := (hcases.resolve_left hlm).resolve_left hrm
    -- The divisor has become the dividend.
    have hr : afterOne σ l q m r = σ l := by
      unfold afterOne
      rw [Function.update_of_ne (Ne.symm hrm), ← hqr, Function.update_self]
    rw [udivremTail_equal _ _ _ (by rw [hl, hr]) (by rw [hl, hr]) (hrhs.trans_le hlhs),
      Option.some.injEq] at hrun
    have hresult := hword 1 (Nat.le_refl 1)
    rw [← hrun, Function.update_of_ne hqm, Function.update_self]
    exact ⟨hresult.valid, hresult.width, fun heq => hval (heq.symm.trans hresult.val_eq)⟩

end Unsigned

/-- The objects of a call that shares none. -/
inductive Object where
  | LHS | RHS | Quotient | Remainder
  deriving DecidableEq

def distinct (σ : Loc → APInt) (LHS RHS Quotient Remainder : Loc) : Object → APInt
  | .LHS => σ LHS
  | .RHS => σ RHS
  | .Quotient => σ Quotient
  | .Remainder => σ Remainder

/-- A call stores the same quotient and remainder as a call with four objects. -/
def SameResults (run : Option (Loc → APInt)) (Quotient Remainder : Loc)
    (run' : Option (Object → APInt)) : Prop :=
  ∃ σ' τ', run = some σ' ∧ run' = some τ' ∧ SameInt (σ' Quotient) (τ' .Quotient) ∧
    SameInt (σ' Remainder) (τ' .Remainder)

section Calls

variable {σ : Loc → APInt} {l r q m : Loc}

theorem udivrem_same_iff (h : Operands (σ l) (σ r)) (hqm : q ≠ m)
    (getMemory getMemory' : Words64) :
    SameResults (udivremAt getMemory getMemory' σ l r q m) q m
        (udivremAt getMemory getMemory' (distinct σ l r q m) .LHS .RHS .Quotient .Remainder) ↔
      ¬Clobbers (σ l).BitWidth (σ l).val (σ r).val l r q m := by
  have hdistinct : ¬Clobbers (σ l).BitWidth (σ l).val (σ r).val Object.LHS .RHS .Quotient
      .Remainder := by
    rintro ⟨-, -, -, -, heq | heq | ⟨heq, -⟩⟩
    · cases heq
    · cases heq
    · cases heq
  obtain ⟨τ', hτ, hdiv⟩ := udivremAt_spec (σ := distinct σ l r q m) (l := .LHS) (r := .RHS)
    (q := .Quotient) (m := .Remainder) h (by decide) hdistinct getMemory getMemory'
  constructor
  · rintro ⟨σ', τ'', hσ, hτ', hquot, -⟩ hclobber
    rw [hτ, Option.some.injEq] at hτ'
    have hwrong := (udivremAt_clobbered h hqm hclobber hσ).2.2
    rw [hquot.val, ← hτ'] at hwrong
    exact hwrong hdiv.quotient.val_eq
  · intro hkeep
    obtain ⟨σ', hσ, hdiv'⟩ := udivremAt_spec h hqm hkeep getMemory getMemory'
    exact ⟨σ', τ', hσ, hτ, hdiv'.quotient.same hdiv.quotient, hdiv'.remainder.same hdiv.remainder⟩

/-! ## The signed division -/

/-- What is divided: the operand, or the temporary with its negation. -/
def dividend (σ : Loc → APInt) (l : Loc) : Operand Loc :=
  if (σ l).isNegative then .negLHS else .var l

def divisor (σ : Loc → APInt) (r : Loc) : Operand Loc :=
  if (σ r).isNegative then .negRHS else .var r

/-- The signs of the results are set after the division of the magnitudes. -/
def setSigns (negQuotient negRemainder : Bool) (q m : Loc) (τ : Operand Loc → APInt) :
    Loc → APInt :=
  let σ := fun x => τ (.var x)
  let σ := if negQuotient then negateAt σ q else σ
  if negRemainder then negateAt σ m else σ

theorem sdivremAt_eq (getMemory getMemory' : Words64) (σ : Loc → APInt) (l r q m : Loc) :
    sdivremAt getMemory getMemory' σ l r q m =
      (udivremAt getMemory getMemory' (withTemps σ l r) (dividend σ l) (divisor σ r) (.var q)
        (.var m)).map (setSigns ((σ l).isNegative ^^ (σ r).isNegative) (σ l).isNegative q m) := by
  unfold sdivremAt dividend divisor
  cases (σ l).isNegative with
  | true =>
    cases (σ r).isNegative with
    | true => exact Option.map_map _ _ _
    | false => exact Option.map_map _ _ _
  | false =>
    cases (σ r).isNegative with
    | true => exact Option.map_map _ _ _
    | false => rfl

theorem setSigns_quotient (negQuotient negRemainder : Bool) (hqm : q ≠ m)
    (τ : Operand Loc → APInt) : setSigns negQuotient negRemainder q m τ q =
      if negQuotient then negate (τ (.var q)) else τ (.var q) := by
  unfold setSigns negateAt
  cases negQuotient with
  | true =>
    cases negRemainder with
    | true => simp [hqm]
    | false => simp
  | false =>
    cases negRemainder with
    | true => simp [hqm]
    | false => rfl

theorem setSigns_remainder (negQuotient negRemainder : Bool) (hqm : q ≠ m)
    (τ : Operand Loc → APInt) : setSigns negQuotient negRemainder q m τ m =
      if negRemainder then negate (τ (.var m)) else τ (.var m) := by
  unfold setSigns negateAt
  cases negQuotient with
  | true =>
    cases negRemainder with
    | true => simp [hqm.symm]
    | false => simp [hqm.symm]
  | false =>
    cases negRemainder with
    | true => simp
    | false => rfl

theorem SameInt.ite_negate {A B : APInt} (h : SameInt A B) (c : Bool) :
    SameInt (if c then APInt.negate A else A) (if c then APInt.negate B else B) := by
  cases c with
  | true => exact h.negate
  | false => exact h

theorem ite_negate_val_ne {A B : APInt} (hA : A.Valid) (hB : B.Valid)
    (hwidth : A.BitWidth = B.BitWidth) (hne : A.val ≠ B.val) (c : Bool) :
    (if c then negate A else A).val ≠ (if c then negate B else B).val := by
  cases c with
  | true => exact mt (negate_val_inj hA hB hwidth).mp hne
  | false => exact hne

omit [DecidableEq Loc] in
theorem withTemps_dividend (h : Operands (σ l) (σ r)) :
    (withTemps σ l r (dividend σ l)).Valid ∧
      (withTemps σ l r (dividend σ l)).BitWidth = (σ l).BitWidth := by
  unfold dividend
  cases (σ l).isNegative with
  | true =>
    obtain ⟨hvalid, hwidth, -⟩ := negate_spec h.left
    exact ⟨hvalid, hwidth⟩
  | false => exact ⟨h.left, rfl⟩

omit [DecidableEq Loc] in
theorem operands_withTemps (h : Operands (σ l) (σ r)) :
    Operands (withTemps σ l r (dividend σ l)) (withTemps σ l r (divisor σ r)) := by
  obtain ⟨hvalid, hwidth⟩ := withTemps_dividend h
  unfold divisor
  cases (σ r).isNegative with
  | true =>
    obtain ⟨hvalid', hwidth', -⟩ := negate_spec h.right
    refine ⟨hvalid, hvalid', by rw [hwidth, h.width]; exact hwidth'.symm, ?_⟩
    exact Nat.pos_of_ne_zero (mt (negate_val_eq_zero h.right).mp (Nat.ne_of_gt h.pos))
  | false => exact ⟨hvalid, h.right, hwidth.trans h.width, h.pos⟩

theorem sdivrem_same_iff (h : Operands (σ l) (σ r)) (hqm : q ≠ m)
    (getMemory getMemory' : Words64) :
    SameResults (sdivremAt getMemory getMemory' σ l r q m) q m
        (sdivremAt getMemory getMemory' (distinct σ l r q m) .LHS .RHS .Quotient .Remainder) ↔
      ¬Clobbers (σ l).BitWidth (withTemps σ l r (dividend σ l)).val
        (withTemps σ l r (divisor σ r)).val (dividend σ l) (divisor σ r) (.var q) (.var m) := by
  obtain ⟨-, hwidth⟩ := withTemps_dividend h
  have hops := operands_withTemps h
  have hvar : (Operand.var q : Operand Loc) ≠ .var m := fun heq => hqm (Operand.var.inj heq)
  have hops' := operands_withTemps (σ := distinct σ l r q m) (l := .LHS) (r := .RHS) h
  have hdistinct : ∀ w a b, ¬Clobbers w a b (dividend (distinct σ l r q m) .LHS)
      (divisor (distinct σ l r q m) .RHS) (.var .Quotient) (.var .Remainder) := by
    rintro w a b ⟨-, -, -, -, heq | heq | ⟨heq, -⟩⟩
    · unfold dividend at heq
      split at heq <;> cases heq
    · unfold divisor at heq
      split at heq <;> cases heq
    · unfold divisor at heq
      split at heq <;> cases heq
  -- The distinct call divides the same values.
  have hleft : withTemps (distinct σ l r q m) .LHS .RHS (dividend (distinct σ l r q m) .LHS) =
      withTemps σ l r (dividend σ l) := by
    unfold dividend
    change (withTemps _ _ _ (if (σ l).isNegative then _ else _)) = _
    split
    · rfl
    · rfl
  have hright : withTemps (distinct σ l r q m) .LHS .RHS (divisor (distinct σ l r q m) .RHS) =
      withTemps σ l r (divisor σ r) := by
    unfold divisor
    change (withTemps _ _ _ (if (σ r).isNegative then _ else _)) = _
    split
    · rfl
    · rfl
  obtain ⟨τ', hτ, hdiv⟩ := udivremAt_spec hops' (q := .var .Quotient) (m := .var .Remainder)
    (by decide) (hdistinct _ _ _) getMemory getMemory'
  rw [hleft, hright] at hdiv
  rw [← hwidth, sdivremAt_eq, sdivremAt_eq, hτ, Option.map_some]
  constructor
  · rintro ⟨σ', τ'', hσ, hτ', hquot, -⟩ hclobber
    obtain ⟨τ, hrun, rfl⟩ := Option.map_eq_some_iff.mp hσ
    rw [Option.some.injEq] at hτ'
    obtain ⟨hvalid, hsame, hwrong⟩ := udivremAt_clobbered hops hvar hclobber hrun
    rw [← hdiv.quotient.val_eq] at hwrong
    have hval := hquot.val
    rw [← hτ', setSigns_quotient _ _ hqm, setSigns_quotient _ _ (by decide)] at hval
    exact ite_negate_val_ne hvalid hdiv.quotient.valid (hsame.trans hdiv.quotient.width.symm)
      hwrong _ hval
  · intro hkeep
    obtain ⟨τ, hrun, hdiv'⟩ := udivremAt_spec hops hvar hkeep getMemory getMemory'
    rw [hrun, Option.map_some]
    refine ⟨_, _, rfl, rfl, ?_, ?_⟩
    · rw [setSigns_quotient _ _ hqm, setSigns_quotient _ _ (by decide)]
      exact (hdiv'.quotient.same hdiv.quotient).ite_negate _
    · rw [setSigns_remainder _ _ hqm, setSigns_remainder _ _ (by decide)]
      exact (hdiv'.remainder.same hdiv.remainder).ite_negate _

/-- Both divisions tolerate shared objects just where no operand is clobbered. -/
theorem divrem_same_iff (hl : (σ l).Valid) (hr : (σ r).Valid)
    (hwidth : (σ l).BitWidth = (σ r).BitWidth) (hne : (σ r).val ≠ 0) (hqm : q ≠ m)
    (getMemory getMemory' : Words64) :
    (SameResults (udivremAt getMemory getMemory' σ l r q m) q m
        (udivremAt getMemory getMemory' (distinct σ l r q m) .LHS .RHS .Quotient .Remainder) ↔
      ¬Clobbers (σ l).BitWidth (σ l).val (σ r).val l r q m) ∧
    (SameResults (sdivremAt getMemory getMemory' σ l r q m) q m
        (sdivremAt getMemory getMemory' (distinct σ l r q m) .LHS .RHS .Quotient .Remainder) ↔
      ¬Clobbers (σ l).BitWidth (withTemps σ l r (dividend σ l)).val
        (withTemps σ l r (divisor σ r)).val (dividend σ l) (divisor σ r) (.var q) (.var m)) := by
  have h : Operands (σ l) (σ r) := ⟨hl, hr, hwidth, Nat.pos_of_ne_zero hne⟩
  exact ⟨udivrem_same_iff h hqm getMemory getMemory', sdivrem_same_iff h hqm getMemory getMemory'⟩

end Calls

/-- The quotient of `12` by `5` in the object of the dividend. -/
theorem quotient_in_dividend :
    let σ : Fin 3 → APInt := fun i => ofWord 128 ([12#64, 5#64, 0#64].getD i 0)
    SameResults (udivremAt (fun _ => 0) (fun _ => 0) σ 0 1 0 2) 0 2
      (udivremAt (fun _ => 0) (fun _ => 0) (distinct σ 0 1 0 2) .LHS .RHS .Quotient .Remainder) ∧
    SameResults (sdivremAt (fun _ => 0) (fun _ => 0) σ 0 1 0 2) 0 2
      (sdivremAt (fun _ => 0) (fun _ => 0) (distinct σ 0 1 0 2) .LHS .RHS .Quotient .Remainder) := by
  intro σ
  have hvalid : ∀ i, (σ i).Valid := by
    intro i
    refine (ofWord_valid (by decide) ?_).1
    exact Nat.lt_of_lt_of_le (BitVec.isLt _) (Nat.pow_le_pow_right (by decide) (by decide))
  have hiff := divrem_same_iff (σ := σ) (l := 0) (r := 1) (q := 0) (m := 2) (hvalid 0) (hvalid 1)
    rfl (by decide +kernel) (by decide) (fun _ => 0) (fun _ => 0)
  refine ⟨hiff.1.mpr ?_, hiff.2.mpr ?_⟩
  · rintro ⟨-, hone, -⟩
    exact absurd hone (by decide +kernel)
  · rintro ⟨-, hone, -⟩
    exact absurd hone (by decide +kernel)

/-- The remainder of `5` by `1` in the object of the dividend: the quotient is lost. -/
theorem remainder_in_dividend :
    let σ : Fin 3 → APInt := fun i => ofWord 128 ([5#64, 1#64, 0#64].getD i 0)
    (udivremAt (fun _ => 0) (fun _ => 0) σ 0 1 2 0).map (fun σ' => (σ' 2).val) = some 0 ∧
      (udivremAt (fun _ => 0) (fun _ => 0) (distinct σ 0 1 2 0) .LHS .RHS .Quotient
        .Remainder).map (fun τ => (τ .Quotient).val) = some 5 := by
  decide +kernel

end SmlnjLlvm.Support.APInt
