import SmlnjLlvm.Support.APIntNegate
import SmlnjLlvm.Support.APIntShifts

/-!
# Bits of integers of any width

A position has its word and its bit in the word. Operations that move bits are
told from where each bit of the result comes; the bits determine the value.
-/

namespace SmlnjLlvm.Support.APInt

def whichWord (bitPosition : Nat) : Nat := bitPosition / APINT_BITS_PER_WORD

def whichBit (bitPosition : Nat) : Nat := bitPosition % APINT_BITS_PER_WORD

def maskBit (bitPosition : Nat) : BitVec 64 := 1 <<< whichBit bitPosition

def getWord (A : APInt) (bitPosition : Nat) : BitVec 64 :=
  if A.isSingleWord then A.pVal 0 else A.pVal (whichWord bitPosition)

/-- The operator `[]`. -/
def bitAt (A : APInt) (bitPosition : Nat) : Bool :=
  maskBit bitPosition &&& A.getWord bitPosition != 0

/-- The word that a single bit is changed in. -/
def updateWord (A : APInt) (bitPosition : Nat) (f : BitVec 64 → BitVec 64) : APInt :=
  let i := if A.isSingleWord then 0 else whichWord bitPosition
  { A with pVal := Function.update A.pVal i (f (A.pVal i)) }

def setBit (A : APInt) (BitPosition : Nat) : APInt :=
  A.updateWord BitPosition (· ||| maskBit BitPosition)

def clearBit (A : APInt) (BitPosition : Nat) : APInt :=
  A.updateWord BitPosition (· &&& ~~~maskBit BitPosition)

def setBitVal (A : APInt) (BitPosition : Nat) (BitValue : Bool) : APInt :=
  if BitValue then A.setBit BitPosition else A.clearBit BitPosition

/-- The constructor from an array: a single word reads its first element, which has to be there. -/
def ofArray (numBits : Nat) (bigVal : Words64) (size : Nat) : Option APInt :=
  if numBits ≤ APINT_BITS_PER_WORD then
    if 0 < size then
      some (clearUnusedBits
        { BitWidth := numBits, pVal := Function.update (fun _ => 0) 0 (bigVal 0) })
    else none
  else
    let words := min size (getNumWordsOf numBits)
    some (clearUnusedBits
      { BitWidth := numBits, pVal := fun i => if i < words then bigVal i else 0 })

/-- The operator `|=`. -/
def orAssign (A RHS : APInt) : Option APInt :=
  if A.BitWidth = RHS.BitWidth then
    if A.isSingleWord then
      some { A with pVal := Function.update A.pVal 0 (A.pVal 0 ||| RHS.pVal 0) }
    else
      some { A with
        pVal := fun i => if i < A.getNumWords then A.pVal i ||| RHS.pVal i else A.pVal i }
  else none

def wordBit (w : Words64) (b : Nat) : Bool := (w (b / 64)).getLsbD (b % 64)

theorem wordBit_add (w : Words64) (i : Nat) {j : Nat} (hj : j < 64) :
    wordBit w (64 * i + j) = (w i).getLsbD j := by
  have hdiv : (64 * i + j) / 64 = i := by omega
  have hmod : (64 * i + j) % 64 = j := by omega
  rw [wordBit, hdiv, hmod]

theorem wordBit_below (w : Words64) (n b : Nat) :
    wordBit (fun i => if i < n then w i else 0) b = (decide (b < 64 * n) && wordBit w b) := by
  unfold wordBit
  dsimp only
  by_cases hb : b < 64 * n
  · rw [if_pos (by omega), decide_eq_true hb, Bool.true_and]
  · rw [if_neg (by omega), decide_eq_false hb, Bool.false_and]
    exact BitVec.getLsbD_zero

variable {A B : APInt}

theorem testBit_val (A : APInt) (b : Nat) :
    A.val.testBit b = (decide (b < 64 * A.numWords) && wordBit A.pVal b) := by
  rw [val, testBit_wordsVal, wordBit]
  congr 1
  exact decide_eq_decide.mpr (by omega)

theorem testBit_val_of_lt {b : Nat} (hb : b < 64 * A.numWords) :
    A.val.testBit b = wordBit A.pVal b := by
  rw [testBit_val, decide_eq_true hb, Bool.true_and]

theorem width_le_words (A : APInt) : A.BitWidth ≤ 64 * A.numWords := by
  have hspec := numWords_spec A
  omega

theorem testBit_val_of_ge (hA : A.Valid) {b : Nat} (hb : A.BitWidth ≤ b) :
    A.val.testBit b = false :=
  Nat.testBit_lt_two_pow (Nat.lt_of_lt_of_le hA.val_lt (Nat.pow_le_pow_right (by decide) hb))

theorem valid_of_bits (hwidth : A.BitWidth < 2 ^ 32)
    (h : ∀ b, A.BitWidth ≤ b → A.val.testBit b = false) : A.Valid :=
  ⟨hwidth, Nat.lt_pow_two_of_testBit _ h⟩

theorem testBit_clearUnusedBits (A : APInt) (b : Nat) :
    (clearUnusedBits A).val.testBit b = (decide (b < A.BitWidth) && wordBit A.pVal b) := by
  have hle := width_le_words A
  rw [clearUnusedBits_val, Nat.testBit_mod_two_pow]
  by_cases hb : b < A.BitWidth
  · rw [testBit_val_of_lt (by omega)]
  · rw [decide_eq_false hb, Bool.false_and, Bool.false_and]

theorem wordBit_update (w : Words64) (i : Nat) (v : BitVec 64) (b : Nat) :
    wordBit (Function.update w i v) b = if b / 64 = i then v.getLsbD (b % 64) else wordBit w b := by
  unfold wordBit
  by_cases hb : b / 64 = i
  · rw [if_pos hb, hb, Function.update_self]
  · rw [if_neg hb, Function.update_of_ne hb]

theorem maskBit_eq (p : Nat) : maskBit p = BitVec.twoPow 64 (p % 64) := rfl

theorem maskBit_and_ne_zero (p : Nat) (x : BitVec 64) :
    (maskBit p &&& x != 0) = x.getLsbD (p % 64) := by
  have hpos : BitVec.twoPow 64 (p % 64) ≠ 0#64 := by
    intro hzero
    have hbit := congrArg (fun v : BitVec 64 => v.getLsbD (p % 64)) hzero
    simp [Nat.mod_lt p (show 0 < 64 by decide)] at hbit
  rw [maskBit_eq, BitVec.twoPow_and]
  cases x.getLsbD (p % 64)
  · rfl
  · rw [if_pos rfl]
    exact bne_iff_ne.mpr hpos

theorem getWord_eq {b : Nat} (hb : b < 64 * A.numWords) : A.getWord b = A.pVal (b / 64) := by
  unfold getWord whichWord APINT_BITS_PER_WORD
  by_cases hsingle : A.isSingleWord = true
  · rw [numWords_single hsingle] at hb
    rw [if_pos hsingle, Nat.div_eq_of_lt hb]
  · rw [if_neg hsingle]

theorem bitAt_eq {b : Nat} (hb : b < 64 * A.numWords) : A.bitAt b = A.val.testBit b := by
  rw [bitAt, maskBit_and_ne_zero, getWord_eq hb, testBit_val_of_lt hb, wordBit]

theorem updateWord_width (A : APInt) (p : Nat) (f : BitVec 64 → BitVec 64) :
    (A.updateWord p f).BitWidth = A.BitWidth := rfl

theorem updateWord_pVal {p : Nat} (hp : p < 64 * A.numWords) (f : BitVec 64 → BitVec 64) :
    (A.updateWord p f).pVal = Function.update A.pVal (p / 64) (f (A.pVal (p / 64))) := by
  unfold updateWord whichWord APINT_BITS_PER_WORD
  by_cases hsingle : A.isSingleWord = true
  · rw [numWords_single hsingle] at hp
    rw [if_pos hsingle, Nat.div_eq_of_lt hp]
  · rw [if_neg hsingle]

theorem wordBit_updateWord {p : Nat} (hp : p < 64 * A.numWords) (f : BitVec 64 → BitVec 64)
    (b : Nat) : wordBit (A.updateWord p f).pVal b =
      if b / 64 = p / 64 then (f (A.pVal (p / 64))).getLsbD (b % 64) else wordBit A.pVal b := by
  rw [updateWord_pVal hp, wordBit_update]

theorem setBitVal_width (A : APInt) (p : Nat) (v : Bool) :
    (A.setBitVal p v).BitWidth = A.BitWidth := by
  unfold setBitVal
  split
  · exact updateWord_width _ _ _
  · exact updateWord_width _ _ _

theorem wordBit_setBitVal {p : Nat} (hp : p < 64 * A.numWords) (v : Bool) (b : Nat) :
    wordBit (A.setBitVal p v).pVal b = if b = p then v else wordBit A.pVal b := by
  have hmod := Nat.mod_lt b (show 0 < 64 by decide)
  by_cases hword : b / 64 = p / 64
  · have hiff : b % 64 = p % 64 ↔ b = p := by omega
    cases v
    · rw [setBitVal, if_neg Bool.false_ne_true, clearBit, wordBit_updateWord hp, if_pos hword,
        BitVec.getLsbD_and, BitVec.getLsbD_not, maskBit_eq, BitVec.getLsbD_twoPow, ← hword]
      by_cases hb : b = p
      · subst hb
        simp
      · have hne : p % 64 ≠ b % 64 := fun heq => hb (hiff.mp heq.symm)
        simp [hb, hne, hmod, wordBit]
    · rw [setBitVal, if_pos rfl, setBit, wordBit_updateWord hp, if_pos hword, BitVec.getLsbD_or,
        maskBit_eq, BitVec.getLsbD_twoPow, ← hword]
      by_cases hb : b = p
      · subst hb
        simp [hmod]
      · have hne : p % 64 ≠ b % 64 := fun heq => hb (hiff.mp heq.symm)
        simp [hb, hne, wordBit]
  · have hne : b ≠ p := fun heq => hword (congrArg (· / 64) heq)
    rw [if_neg hne]
    cases v
    · rw [setBitVal, if_neg Bool.false_ne_true, clearBit, wordBit_updateWord hp, if_neg hword]
    · rw [setBitVal, if_pos rfl, setBit, wordBit_updateWord hp, if_neg hword]

theorem Represents.of_bits {n x : Nat} (hn : n < 2 ^ 32) (hwidth : A.BitWidth = n) (hx : x < 2 ^ n)
    (hbits : ∀ b, A.val.testBit b = x.testBit b) : A.Represents n x := by
  have hval : A.val = x := Nat.eq_of_testBit_eq hbits
  have hvalid : A.Valid := ⟨by rwa [hwidth], by rwa [hwidth, hval]⟩
  have hself := hvalid.represents
  rwa [hwidth, hval] at hself

theorem testBit_ofWord (n : Nat) (v : BitVec 64) (b : Nat) :
    (ofWord n v).val.testBit b = (decide (b < n) && v.getLsbD b) := by
  rw [ofWord, testBit_clearUnusedBits, wordBit_update]
  by_cases hb : b / 64 = 0
  · have hmod : b % 64 = b := by omega
    rw [if_pos hb, hmod]
  · rw [if_neg hb, BitVec.getLsbD_of_ge v b (by omega), wordBit]
    simp

theorem ofWord_width (n : Nat) (v : BitVec 64) : (ofWord n v).BitWidth = n :=
  clearUnusedBits_width _

theorem ofArray_spec {n size : Nat} (bigVal : Words64) (h : 0 < size ∨ 64 < n) :
    ∃ R, ofArray n bigVal size = some R ∧ R.BitWidth = n ∧
      ∀ b, R.val.testBit b = (decide (b < n ∧ b < 64 * size) && wordBit bigVal b) := by
  unfold ofArray APINT_BITS_PER_WORD
  by_cases hsingle : n ≤ 64
  · have hsize : 0 < size := by omega
    rw [if_pos hsingle, if_pos hsize]
    refine ⟨_, rfl, clearUnusedBits_width _, fun b => ?_⟩
    rw [testBit_clearUnusedBits, wordBit_update]
    by_cases hb : b < n
    · have hzero : b / 64 = 0 := by omega
      rw [if_pos hzero, decide_eq_true hb, decide_eq_true ⟨hb, by omega⟩, wordBit, hzero]
    · rw [decide_eq_false hb, decide_eq_false fun hand => hb hand.1, Bool.false_and, Bool.false_and]
  · have hwords := getNumWordsOf_spec n
    rw [if_neg hsingle]
    refine ⟨_, rfl, clearUnusedBits_width _, fun b => ?_⟩
    rw [testBit_clearUnusedBits, wordBit_below, ← Bool.and_assoc, ← Bool.decide_and]
    congr 1
    exact decide_eq_decide.mpr (by dsimp only; omega)

theorem orAssign_spec (h : A.BitWidth = B.BitWidth) :
    ∃ R, orAssign A B = some R ∧ R.BitWidth = A.BitWidth ∧
      ∀ b, R.val.testBit b = (A.val.testBit b || B.val.testBit b) := by
  have hnum := numWords_congr h
  have hbits : ∀ R : APInt, R.BitWidth = A.BitWidth →
      (∀ i < A.numWords, R.pVal i = A.pVal i ||| B.pVal i) →
      ∀ b, R.val.testBit b = (A.val.testBit b || B.val.testBit b) := by
    intro R hwidth hword b
    rw [testBit_val, testBit_val, testBit_val, numWords_congr hwidth, ← hnum,
      ← Bool.and_or_distrib_left]
    by_cases hb : b < 64 * A.numWords
    · rw [wordBit, hword _ (by omega), BitVec.getLsbD_or]
      rfl
    · rw [decide_eq_false hb, Bool.false_and, Bool.false_and]
  unfold orAssign
  rw [if_pos h]
  by_cases hsingle : A.isSingleWord = true
  · rw [if_pos hsingle]
    refine ⟨_, rfl, rfl, hbits _ rfl fun i hi => ?_⟩
    rw [numWords_single hsingle, Nat.lt_one_iff] at hi
    subst hi
    exact Function.update_self 0 (A.pVal 0 ||| B.pVal 0) A.pVal
  · rw [if_neg hsingle]
    refine ⟨_, rfl, rfl, hbits _ rfl fun i hi => ?_⟩
    rw [numWords_multi hsingle] at hi
    exact if_pos hi

end SmlnjLlvm.Support.APInt
