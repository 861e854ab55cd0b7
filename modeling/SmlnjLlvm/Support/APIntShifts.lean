import SmlnjLlvm.Support.APInt

/-!
# Shifts of words

Both shifts work in place, word by word, after whole words have been skipped.
They are read off the bits of the number: a bit of a word is a bit of the whole.
-/

namespace SmlnjLlvm.Support.APInt

open Digits

/-- A turn of the loop of `tcShiftLeft`, for the word `WordShift + k`. -/
def shiftLeftStep (WordShift BitShift k : Nat) (Dst : Words64) : Words64 :=
  let Word := WordShift + k
  let Dst := Function.update Dst Word (Dst (Word - WordShift) <<< BitShift)
  if WordShift < Word then
    Function.update Dst Word
      (Dst Word ||| Dst (Word - WordShift - 1) >>> (APINT_BITS_PER_WORD - BitShift))
  else Dst

def tcShiftLeft (Dst : Words64) (Words Count : Nat) : Words64 :=
  if Count = 0 then Dst
  else
    let WordShift := min (Count / APINT_BITS_PER_WORD) Words
    let BitShift := Count % APINT_BITS_PER_WORD
    let Dst :=
      if BitShift = 0 then fun i => if WordShift ≤ i ∧ i < Words then Dst (i - WordShift) else Dst i
      else downFrom (shiftLeftStep WordShift BitShift) (Words - WordShift) Dst
    clearWords Dst 0 WordShift

/-- A turn of the loop of `tcShiftRight`. -/
def shiftRightStep (WordShift BitShift WordsToMove i : Nat) (Dst : Words64) : Words64 :=
  let Dst := Function.update Dst i (Dst (i + WordShift) >>> BitShift)
  if i + 1 ≠ WordsToMove then
    Function.update Dst i
      (Dst i ||| Dst (i + WordShift + 1) <<< (APINT_BITS_PER_WORD - BitShift))
  else Dst

def tcShiftRight (Dst : Words64) (Words Count : Nat) : Words64 :=
  if Count = 0 then Dst
  else
    let WordShift := min (Count / APINT_BITS_PER_WORD) Words
    let BitShift := Count % APINT_BITS_PER_WORD
    let WordsToMove := Words - WordShift
    let Dst :=
      if BitShift = 0 then fun i => if i < WordsToMove then Dst (i + WordShift) else Dst i
      else upto (shiftRightStep WordShift BitShift WordsToMove) WordsToMove Dst
    clearWords Dst WordsToMove (WordsToMove + WordShift)

theorem testBit_wordsVal (w : Words64) (n b : Nat) :
    (wordsVal w n).testBit b = (decide (b / 64 < n) && (w (b / 64)).getLsbD (b % 64)) := by
  induction n with
  | zero =>
    change Nat.testBit 0 b = _
    simp
  | succ n ih =>
    have hlt := wordsVal_lt w n
    rw [wordsVal_succ, Nat.add_comm, Nat.mul_comm]
    rw [wordsVal_pow] at hlt ⊢
    rw [Nat.testBit_two_pow_mul_add _ hlt]
    by_cases hb : b < 64 * n
    · have hword : b / 64 < n := by omega
      have hnext : b / 64 < n + 1 := by omega
      rw [if_pos hb, ih, decide_eq_true hword, decide_eq_true hnext]
    · rw [if_neg hb, BitVec.testBit_toNat]
      by_cases hword : b / 64 = n
      · have hmod : b - 64 * n = b % 64 := by omega
        rw [hword, hmod, decide_eq_true (Nat.lt_succ_self n), Bool.true_and]
      · have hhigh : 64 ≤ b - 64 * n := by omega
        rw [BitVec.getLsbD_of_ge _ _ hhigh, decide_eq_false (by omega), Bool.false_and]

theorem wordsVal_eq_of_bits {w : Words64} {n x : Nat}
    (hbits : ∀ i < n, ∀ j < 64, (w i).getLsbD j = x.testBit (64 * i + j)) :
    wordsVal w n = x % 2 ^ (64 * n) := by
  apply Nat.eq_of_testBit_eq
  intro b
  rw [testBit_wordsVal, Nat.testBit_mod_two_pow]
  by_cases hb : b / 64 < n
  · have hlt : b < 64 * n := by omega
    rw [decide_eq_true hb, decide_eq_true hlt, hbits _ hb _ (Nat.mod_lt b (by decide)),
      Nat.div_add_mod]
  · have hge : ¬b < 64 * n := by omega
    rw [decide_eq_false hb, decide_eq_false hge, Bool.false_and, Bool.false_and]

theorem getLsbD_word {w : Words64} {n i j : Nat} (hi : i < n) (hj : j < 64) :
    (w i).getLsbD j = (wordsVal w n).testBit (64 * i + j) := by
  have hdiv : (64 * i + j) / 64 = i := by omega
  have hmod : (64 * i + j) % 64 = j := by omega
  rw [testBit_wordsVal, hdiv, hmod, decide_eq_true hi, Bool.true_and]

/-- A word that takes its bits from two neighbours. -/
def leftWord (D : Words64) (WordShift BitShift i : Nat) : BitVec 64 :=
  if WordShift < i then
    D (i - WordShift) <<< BitShift ||| D (i - WordShift - 1) >>> (64 - BitShift)
  else D (i - WordShift) <<< BitShift

theorem shiftLeftSteps_word (D : Words64) {Words WordShift : Nat} (BitShift : Nat)
    (hle : WordShift ≤ Words) :
    (∀ i, WordShift ≤ i → i < Words →
      downFrom (shiftLeftStep WordShift BitShift) (Words - WordShift) D i =
        leftWord D WordShift BitShift i) ∧
      ∀ i, Words ≤ i → downFrom (shiftLeftStep WordShift BitShift) (Words - WordShift) D i = D i := by
  have hrule := downFrom_rule (f := shiftLeftStep WordShift BitShift) (n := Words - WordShift)
    (s := D) (fun k D' => (∀ i, i < WordShift + k → D' i = D i) ∧
      (∀ i, WordShift + k ≤ i → i < Words → D' i = leftWord D WordShift BitShift i) ∧
        ∀ i, Words ≤ i → D' i = D i) ?_ ?_
  · exact ⟨fun i hlo hhi => hrule.2.1 i (by omega) hhi, hrule.2.2⟩
  · exact ⟨fun _ _ => rfl, fun i hlo hhi => absurd hhi (by omega), fun _ _ => rfl⟩
  · rintro k D' hk ⟨hlow, hdone, hhigh⟩
    have hword : shiftLeftStep WordShift BitShift k D' =
        Function.update D' (WordShift + k) (leftWord D WordShift BitShift (WordShift + k)) := by
      unfold shiftLeftStep leftWord APINT_BITS_PER_WORD
      by_cases hpos : WordShift < WordShift + k
      · have hne : WordShift + k - WordShift - 1 ≠ WordShift + k := by omega
        rw [if_pos hpos, if_pos hpos, Function.update_self, Function.update_of_ne hne,
          Function.update_idem, hlow _ (by omega), hlow _ (by omega)]
      · rw [if_neg hpos, if_neg hpos, hlow _ (by omega)]
    rw [hword]
    refine ⟨?_, ?_, ?_⟩
    · intro i hi
      have hne : i ≠ WordShift + k := by omega
      rw [Function.update_of_ne hne]
      exact hlow i (by omega)
    · intro i hlo hhi
      by_cases heq : i = WordShift + k
      · rw [heq, Function.update_self]
      · rw [Function.update_of_ne heq]
        exact hdone i (by omega) hhi
    · intro i hi
      have hne : i ≠ WordShift + k := by omega
      rw [Function.update_of_ne hne]
      exact hhigh i hi

theorem tcShiftLeft_word (D : Words64) (Words : Nat) {Count : Nat} (hcount : Count ≠ 0) {i : Nat}
    (hi : i < Words) :
    tcShiftLeft D Words Count i =
      if i < Count / 64 then 0
      else if Count % 64 = 0 then D (i - Count / 64)
      else leftWord D (Count / 64) (Count % 64) i := by
  unfold tcShiftLeft clearWords APINT_BITS_PER_WORD
  rw [if_neg hcount]
  by_cases hlow : i < Count / 64
  · rw [if_pos hlow, if_pos ⟨Nat.zero_le i, by omega⟩]
  · have hmin : min (Count / 64) Words = Count / 64 := Nat.min_eq_left (by omega)
    rw [if_neg hlow, if_neg (by omega), hmin]
    by_cases hbits : Count % 64 = 0
    · rw [if_pos hbits, if_pos hbits, if_pos ⟨by omega, hi⟩]
    · rw [if_neg hbits, if_neg hbits]
      exact (shiftLeftSteps_word D (Count % 64) (by omega)).1 i (by omega) hi

theorem tcShiftLeft_spec (D : Words64) (Words Count : Nat) :
    wordsVal (tcShiftLeft D Words Count) Words =
      wordsVal D Words * 2 ^ Count % 2 ^ (64 * Words) := by
  by_cases hcount : Count = 0
  · have hlt := wordsVal_lt D Words
    rw [wordsVal_pow] at hlt
    rw [tcShiftLeft, if_pos hcount, hcount, pow_zero, Nat.mul_one, Nat.mod_eq_of_lt hlt]
  apply wordsVal_eq_of_bits
  intro i hi j hj
  rw [tcShiftLeft_word D Words hcount hi, Nat.testBit_mul_two_pow]
  have hsplit := Nat.div_add_mod Count 64
  have hmod := Nat.mod_lt Count (show 0 < 64 by decide)
  generalize Count / 64 = q at hsplit ⊢
  generalize Count % 64 = b at hsplit hmod ⊢
  by_cases hlow : i < q
  · rw [if_pos hlow, decide_eq_false (by omega), Bool.false_and]
    exact BitVec.getLsbD_zero
  rw [if_neg hlow]
  by_cases hbits : b = 0
  · have hpos : 64 * i + j - Count = 64 * (i - q) + j := by omega
    rw [if_pos hbits, decide_eq_true (by omega), Bool.true_and, hpos]
    exact getLsbD_word (by omega) hj
  · rw [if_neg hbits]
    unfold leftWord
    by_cases hj' : j < b
    · -- The bit comes from the word below, if there is one.
      by_cases hnext : q < i
      · have hpos : 64 * i + j - Count = 64 * (i - q - 1) + (64 - b + j) := by omega
        rw [if_pos hnext, BitVec.getLsbD_or, BitVec.getLsbD_shiftLeft, BitVec.getLsbD_ushiftRight,
          decide_eq_true hj', decide_eq_true (by omega : Count ≤ 64 * i + j), hpos]
        simp only [Bool.not_true, Bool.and_false, Bool.false_and, Bool.false_or, Bool.true_and]
        exact getLsbD_word (by omega) (by omega)
      · rw [if_neg hnext, BitVec.getLsbD_shiftLeft, decide_eq_true hj',
          decide_eq_false (by omega : ¬Count ≤ 64 * i + j)]
        simp only [Bool.not_true, Bool.and_false, Bool.false_and]
    · have hpos : 64 * i + j - Count = 64 * (i - q) + (j - b) := by omega
      have hfirst : (D (i - q) <<< b).getLsbD j = (wordsVal D Words).testBit (64 * i + j - Count) := by
        rw [BitVec.getLsbD_shiftLeft, decide_eq_false hj', decide_eq_true hj, hpos]
        simp only [Bool.not_false, Bool.true_and]
        exact getLsbD_word (by omega) (by omega)
      rw [decide_eq_true (by omega : Count ≤ 64 * i + j), Bool.true_and, ← hfirst]
      by_cases hnext : q < i
      · have hzero : (D (i - q - 1) >>> (64 - b)).getLsbD j = false := by
          rw [BitVec.getLsbD_ushiftRight]
          exact BitVec.getLsbD_of_ge _ _ (by omega)
        rw [if_pos hnext, BitVec.getLsbD_or, hzero, Bool.or_false]
      · rw [if_neg hnext]

/-- A word that takes its bits from two neighbours, of which the upper one may be missing. -/
def rightWord (D : Words64) (WordShift BitShift WordsToMove i : Nat) : BitVec 64 :=
  if i + 1 ≠ WordsToMove then
    D (i + WordShift) >>> BitShift ||| D (i + WordShift + 1) <<< (64 - BitShift)
  else D (i + WordShift) >>> BitShift

theorem shiftRightSteps_word (D : Words64) (WordShift BitShift WordsToMove : Nat) :
    (∀ i < WordsToMove,
      upto (shiftRightStep WordShift BitShift WordsToMove) WordsToMove D i =
        rightWord D WordShift BitShift WordsToMove i) ∧
      ∀ i, WordsToMove ≤ i →
        upto (shiftRightStep WordShift BitShift WordsToMove) WordsToMove D i = D i := by
  have hrule := upto_rule (f := shiftRightStep WordShift BitShift WordsToMove) (n := WordsToMove)
    (s := D) (fun k D' => (∀ i < k, D' i = rightWord D WordShift BitShift WordsToMove i) ∧
      ∀ i, k ≤ i → D' i = D i) ?_ ?_
  · exact hrule
  · exact ⟨fun i hi => absurd hi (Nat.not_lt_zero i), fun _ _ => rfl⟩
  · rintro k D' hk ⟨hdone, hrest⟩
    have hword : shiftRightStep WordShift BitShift WordsToMove k D' =
        Function.update D' k (rightWord D WordShift BitShift WordsToMove k) := by
      unfold shiftRightStep rightWord APINT_BITS_PER_WORD
      by_cases hlast : k + 1 ≠ WordsToMove
      · have hne : k + WordShift + 1 ≠ k := by omega
        rw [if_pos hlast, if_pos hlast, Function.update_self, Function.update_of_ne hne,
          Function.update_idem, hrest _ (by omega), hrest _ (by omega)]
      · rw [if_neg hlast, if_neg hlast, hrest _ (by omega)]
    rw [hword]
    constructor
    · intro i hi
      by_cases heq : i = k
      · rw [heq, Function.update_self]
      · rw [Function.update_of_ne heq]
        exact hdone i (by omega)
    · intro i hi
      have hne : i ≠ k := by omega
      rw [Function.update_of_ne hne]
      exact hrest i (by omega)

theorem tcShiftRight_word (D : Words64) {Words Count : Nat} (hcount : Count ≠ 0)
    (hle : Count / 64 ≤ Words) {i : Nat} (hi : i < Words) :
    tcShiftRight D Words Count i =
      if Words - Count / 64 ≤ i then 0
      else if Count % 64 = 0 then D (i + Count / 64)
      else rightWord D (Count / 64) (Count % 64) (Words - Count / 64) i := by
  unfold tcShiftRight clearWords APINT_BITS_PER_WORD
  rw [if_neg hcount, Nat.min_eq_left hle]
  by_cases hhigh : Words - Count / 64 ≤ i
  · rw [if_pos hhigh, if_pos ⟨hhigh, by omega⟩]
  · rw [if_neg hhigh, if_neg (by omega)]
    by_cases hbits : Count % 64 = 0
    · rw [if_pos hbits, if_pos hbits, if_pos (by omega)]
    · rw [if_neg hbits, if_neg hbits]
      exact (shiftRightSteps_word D _ _ _).1 i (by omega)

theorem tcShiftRight_spec (D : Words64) {Words Count : Nat} (hle : Count / 64 ≤ Words) :
    wordsVal (tcShiftRight D Words Count) Words = wordsVal D Words / 2 ^ Count := by
  by_cases hcount : Count = 0
  · rw [tcShiftRight, if_pos hcount, hcount, pow_zero, Nat.div_one]
  have hlt : wordsVal D Words / 2 ^ Count < 2 ^ (64 * Words) := by
    have hval := wordsVal_lt D Words
    rw [wordsVal_pow] at hval
    exact (Nat.div_le_self _ _).trans_lt hval
  rw [← Nat.mod_eq_of_lt hlt]
  apply wordsVal_eq_of_bits
  intro i hi j hj
  rw [tcShiftRight_word D hcount hle hi, Nat.testBit_div_two_pow]
  have hsplit := Nat.div_add_mod Count 64
  have hmod := Nat.mod_lt Count (show 0 < 64 by decide)
  generalize Count / 64 = q at hsplit hle ⊢
  generalize Count % 64 = b at hsplit hmod ⊢
  by_cases hhigh : Words - q ≤ i
  · -- No bits are above the words.
    have hnone : (wordsVal D Words).testBit (64 * i + j + Count) = false := by
      rw [testBit_wordsVal, decide_eq_false (by omega), Bool.false_and]
    rw [if_pos hhigh, hnone]
    exact BitVec.getLsbD_zero
  rw [if_neg hhigh]
  by_cases hbits : b = 0
  · have hpos : 64 * i + j + Count = 64 * (i + q) + j := by omega
    rw [if_pos hbits, hpos]
    exact getLsbD_word (by omega) hj
  · rw [if_neg hbits]
    unfold rightWord
    by_cases hj' : j < 64 - b
    · have hpos : 64 * i + j + Count = 64 * (i + q) + (b + j) := by omega
      have hfirst : (D (i + q) >>> b).getLsbD j = (wordsVal D Words).testBit (64 * i + j + Count) := by
        rw [BitVec.getLsbD_ushiftRight, hpos]
        exact getLsbD_word (by omega) (by omega)
      rw [← hfirst]
      by_cases hlast : i + 1 ≠ Words - q
      · rw [if_pos hlast, BitVec.getLsbD_or, BitVec.getLsbD_shiftLeft, decide_eq_true hj']
        simp only [Bool.not_true, Bool.and_false, Bool.false_and, Bool.or_false]
      · rw [if_neg hlast]
    · -- The bit comes from the word above, if there is one.
      have hzero : (D (i + q) >>> b).getLsbD j = false := by
        rw [BitVec.getLsbD_ushiftRight]
        exact BitVec.getLsbD_of_ge _ _ (by omega)
      by_cases hlast : i + 1 ≠ Words - q
      · have hpos : 64 * i + j + Count = 64 * (i + q + 1) + (j - (64 - b)) := by omega
        rw [if_pos hlast, BitVec.getLsbD_or, hzero, BitVec.getLsbD_shiftLeft, decide_eq_false hj',
          decide_eq_true hj, hpos]
        simp only [Bool.not_false, Bool.true_and, Bool.false_or]
        exact getLsbD_word (by omega) (by omega)
      · have hnone : (wordsVal D Words).testBit (64 * i + j + Count) = false := by
          rw [testBit_wordsVal, decide_eq_false (by omega), Bool.false_and]
        rw [if_neg hlast, hzero, hnone]

end SmlnjLlvm.Support.APInt
