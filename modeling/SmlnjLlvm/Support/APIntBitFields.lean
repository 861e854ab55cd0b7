import SmlnjLlvm.Support.APIntShiftOps

/-!
# Bit fields of integers of any width

A field is taken out of an integer or put into it. Fields in one word, fields on
the bounds of words and all others have code of their own; the unsigned sums of
the source wrap around.
-/

namespace SmlnjLlvm.Support.APInt

open Digits

/-- A word with a field in it that is masked out and replaced. -/
def insertWord (word mask subWord : BitVec 64) (loBit : Nat) : BitVec 64 :=
  (word &&& ~~~(mask <<< loBit)) ||| (subWord <<< loBit)

/-- Whole words are copied, and the rest of the field goes into the last word. -/
def insertWords (pVal : Words64) (subBits : APInt) (loWord hi1Word : Nat) : Words64 :=
  let numWholeSubWords := subBits.BitWidth / APINT_BITS_PER_WORD
  let pVal : Words64 := fun i =>
    if loWord ≤ i ∧ i < loWord + numWholeSubWords then subBits.pVal (i - loWord) else pVal i
  let remainingBits := subBits.BitWidth % APINT_BITS_PER_WORD
  if remainingBits ≠ 0 then
    let mask := BitVec.allOnes 64 >>> (APINT_BITS_PER_WORD - remainingBits)
    Function.update pVal hi1Word
      ((pVal hi1Word &&& ~~~mask) ||| subBits.getWord (subBits.BitWidth - 1))
  else pVal

def insertBits (A subBits : APInt) (bitPosition : Nat) : Option APInt :=
  let subBitWidth := subBits.BitWidth
  if (subBitWidth + bitPosition) % 2 ^ 32 ≤ A.BitWidth then
    if subBitWidth = 0 then some A
    else if subBitWidth = A.BitWidth then some subBits
    else if A.isSingleWord then
      let mask := BitVec.allOnes 64 >>> (APINT_BITS_PER_WORD - subBitWidth)
      some { A with
        pVal := Function.update A.pVal 0
          (insertWord (A.pVal 0) mask (subBits.pVal 0) bitPosition) }
    else
      let loBit := whichBit bitPosition
      let loWord := whichWord bitPosition
      let hi1Word := whichWord ((bitPosition + subBitWidth - 1) % 2 ^ 32)
      if loWord = hi1Word then
        let mask := BitVec.allOnes 64 >>> (APINT_BITS_PER_WORD - subBitWidth)
        some { A with
          pVal := Function.update A.pVal loWord
            (insertWord (A.pVal loWord) mask (subBits.pVal 0) loBit) }
      else if loBit = 0 then
        some { A with pVal := insertWords A.pVal subBits loWord hi1Word }
      else
        some (upto (fun i A => A.setBitVal (bitPosition + i) (subBits.bitAt i)) subBitWidth A)
  else none

/-- A word of the result, from two neighbours. -/
def extractStep (pVal : Words64) (loWord loBit NumSrcWords word : Nat) (DestPtr : Words64) :
    Words64 :=
  let w0 := pVal (loWord + word)
  let w1 := if loWord + word + 1 < NumSrcWords then pVal (loWord + word + 1) else 0
  Function.update DestPtr word (w0 >>> loBit ||| w1 <<< (APINT_BITS_PER_WORD - loBit))

def extractBits (A : APInt) (numBits bitPosition : Nat) : Option APInt :=
  if bitPosition < A.BitWidth ∧ (numBits + bitPosition) % 2 ^ 32 ≤ A.BitWidth then
    if A.isSingleWord then some (ofWord numBits (A.pVal 0 >>> bitPosition))
    else
      let loBit := whichBit bitPosition
      let loWord := whichWord bitPosition
      let hiWord := whichWord ((bitPosition + numBits + (2 ^ 32 - 1)) % 2 ^ 32)
      if loWord = hiWord then some (ofWord numBits (A.pVal loWord >>> loBit))
      else if loBit = 0 then
        ofArray numBits (fun i => A.pVal (loWord + i)) ((1 + hiWord + (2 ^ 32 - loWord)) % 2 ^ 32)
      else
        let Result := ofWord numBits 0
        let DestPtr := upto (extractStep A.pVal loWord loBit A.getNumWords) Result.getNumWords
          Result.pVal
        some (clearUnusedBits { Result with pVal := DestPtr })
  else none

variable {A Y : APInt}

/-! ## Insertion -/

/-- The field at a position is the one that is inserted, and the other bits stay. -/
structure Inserted (A Y R : APInt) (p : Nat) : Prop where
  width : R.BitWidth = A.BitWidth
  valid : R.Valid
  bits : ∀ b, R.val.testBit b =
    if p ≤ b ∧ b < p + Y.BitWidth then Y.val.testBit (b - p) else A.val.testBit b

theorem Inserted.of_words (hA : A.Valid) {p : Nat} (hp : p + Y.BitWidth ≤ A.BitWidth) {R : APInt}
    (hwidth : R.BitWidth = A.BitWidth)
    (h : ∀ b < 64 * A.numWords, wordBit R.pVal b =
      if p ≤ b ∧ b < p + Y.BitWidth then Y.val.testBit (b - p) else wordBit A.pVal b) :
    Inserted A Y R p := by
  have hle := width_le_words A
  have hbits : ∀ b, R.val.testBit b =
      if p ≤ b ∧ b < p + Y.BitWidth then Y.val.testBit (b - p) else A.val.testBit b := by
    intro b
    rw [testBit_val, numWords_congr hwidth]
    by_cases hb : b < 64 * A.numWords
    · rw [decide_eq_true hb, Bool.true_and, h b hb, testBit_val_of_lt hb]
    · rw [decide_eq_false hb, Bool.false_and, if_neg (by omega),
        testBit_val_of_ge hA (by omega)]
  refine ⟨hwidth, valid_of_bits (by rw [hwidth]; exact hA.width_lt) fun b hb => ?_, hbits⟩
  rw [hwidth] at hb
  rw [hbits, if_neg (by omega), testBit_val_of_ge hA hb]

theorem getLsbD_mask {n : Nat} (hle : n ≤ 64) (j : Nat) :
    (BitVec.allOnes 64 >>> (64 - n)).getLsbD j = decide (j < n) := by
  rw [BitVec.getLsbD_ushiftRight, BitVec.getLsbD_allOnes]
  exact decide_eq_decide.mpr (by omega)

theorem getLsbD_insertWord {x y : BitVec 64} {lo n : Nat} (hle : lo + n ≤ 64)
    (hy : ∀ j, n ≤ j → y.getLsbD j = false) {j : Nat} (hj : j < 64) :
    (insertWord x (BitVec.allOnes 64 >>> (64 - n)) y lo).getLsbD j =
      if lo ≤ j ∧ j < lo + n then y.getLsbD (j - lo) else x.getLsbD j := by
  rw [insertWord, BitVec.getLsbD_or, BitVec.getLsbD_and, BitVec.getLsbD_not,
    BitVec.getLsbD_shiftLeft, BitVec.getLsbD_shiftLeft, getLsbD_mask (by omega),
    decide_eq_true hj]
  by_cases hlo : j < lo
  · rw [decide_eq_true hlo, if_neg (by omega)]
    simp
  · rw [decide_eq_false hlo]
    by_cases hin : j - lo < n
    · rw [decide_eq_true hin, if_pos (by omega)]
      simp
    · rw [decide_eq_false hin, if_neg (by omega), hy _ (by omega)]
      simp

theorem inserted_in_word (hA : A.Valid) (hY : Y.Valid) {p : Nat} (hp : p + Y.BitWidth ≤ A.BitWidth)
    (hone : p % 64 + Y.BitWidth ≤ 64) :
    Inserted A Y { A with
      pVal := Function.update A.pVal (p / 64)
        (insertWord (A.pVal (p / 64)) (BitVec.allOnes 64 >>> (64 - Y.BitWidth)) (Y.pVal 0)
          (p % 64)) } p := by
  refine Inserted.of_words hA hp rfl fun b hb => ?_
  have hYval := val_single (isSingleWord_iff.mpr (by omega : Y.BitWidth ≤ 64))
  have hYbit : ∀ j, Y.val.testBit j = (Y.pVal 0).getLsbD j := by
    intro j
    rw [hYval, BitVec.testBit_toNat]
  have hhigh : ∀ j, Y.BitWidth ≤ j → (Y.pVal 0).getLsbD j = false := by
    intro j hj
    rw [← hYbit, testBit_val_of_ge hY hj]
  rw [wordBit_update]
  by_cases hword : b / 64 = p / 64
  · rw [if_pos hword, getLsbD_insertWord hone hhigh (Nat.mod_lt _ (by decide)), ← hword, hYbit]
    by_cases hin : p ≤ b ∧ b < p + Y.BitWidth
    · have hpos : b % 64 - p % 64 = b - p := by omega
      rw [if_pos hin, if_pos (by omega), hpos]
    · rw [if_neg hin, if_neg (by omega)]
      rfl
  · rw [if_neg hword, if_neg (by omega)]

theorem inserted_on_bounds (hA : A.Valid) (hY : Y.Valid) {p : Nat}
    (hp : p + Y.BitWidth ≤ A.BitWidth) (hlow : p % 64 = 0) :
    Inserted A Y { A with
      pVal := insertWords A.pVal Y (p / 64) ((p + Y.BitWidth - 1) / 64) } p := by
  refine Inserted.of_words hA hp rfl fun b hb => ?_
  have hle := width_le_words Y
  have hmod := Nat.mod_lt b (show 0 < 64 by decide)
  have hword : ∀ j, j < 64 → p ≤ b → b / 64 - p / 64 < Y.numWords →
      (Y.pVal (b / 64 - p / 64)).getLsbD j = Y.val.testBit (64 * (b / 64 - p / 64) + j) := by
    intro j hj _ hin
    rw [testBit_val_of_lt (by omega), wordBit_add _ _ hj]
  unfold insertWords APINT_BITS_PER_WORD
  dsimp only
  by_cases hrest : Y.BitWidth % 64 = 0
  · rw [if_neg (by omega), wordBit]
    by_cases hin : p ≤ b ∧ b < p + Y.BitWidth
    · have hpos : 64 * (b / 64 - p / 64) + b % 64 = b - p := by omega
      rw [if_pos (by omega), if_pos hin, hword _ hmod hin.1 (by omega), hpos]
    · rw [if_neg (by omega), if_neg hin]
      rfl
  · have hlast : Y.getWord (Y.BitWidth - 1) = Y.pVal (Y.BitWidth / 64) := by
      rw [getWord_eq (by omega)]
      congr 1
      omega
    have hhigh : ∀ j, Y.BitWidth % 64 ≤ j → (Y.pVal (Y.BitWidth / 64)).getLsbD j = false := by
      intro j hj
      by_cases hj' : j < 64
      · rw [← wordBit_add _ _ hj', ← testBit_val_of_lt (by omega), testBit_val_of_ge hY (by omega)]
      · exact BitVec.getLsbD_of_ge _ _ (Nat.not_lt.mp hj')
    have hfits : 0 + Y.BitWidth % 64 ≤ 64 := by omega
    have hinsert := fun x : BitVec 64 => getLsbD_insertWord (x := x) hfits hhigh hmod
    simp only [insertWord, BitVec.shiftLeft_zero] at hinsert
    rw [if_pos hrest, wordBit_update, hlast]
    by_cases htop : b / 64 = (p + Y.BitWidth - 1) / 64
    · rw [if_pos htop, if_neg (by omega), hinsert]
      by_cases hin : p ≤ b ∧ b < p + Y.BitWidth
      · have hwhole : Y.BitWidth / 64 = b / 64 - p / 64 := by omega
        have hpos : 64 * (b / 64 - p / 64) + b % 64 = b - p := by omega
        rw [if_pos (by omega), if_pos hin, Nat.sub_zero, hwhole, hword _ hmod hin.1 (by omega),
          hpos]
      · rw [if_neg (by omega), if_neg hin, wordBit, htop]
    · rw [if_neg htop, wordBit]
      by_cases hin : p ≤ b ∧ b < p + Y.BitWidth
      · have hpos : 64 * (b / 64 - p / 64) + b % 64 = b - p := by omega
        rw [if_pos (by omega), if_pos hin, hword _ hmod hin.1 (by omega), hpos]
      · rw [if_neg (by omega), if_neg hin]
        rfl

theorem inserted_by_bits (hA : A.Valid) {p : Nat} (hp : p + Y.BitWidth ≤ A.BitWidth) :
    Inserted A Y (upto (fun i A => A.setBitVal (p + i) (Y.bitAt i)) Y.BitWidth A) p := by
  have hleA := width_le_words A
  have hleY := width_le_words Y
  have hloop := upto_rule (f := fun i A => A.setBitVal (p + i) (Y.bitAt i)) (n := Y.BitWidth)
    (s := A) (fun k R => R.BitWidth = A.BitWidth ∧ ∀ b < 64 * A.numWords, wordBit R.pVal b =
      if p ≤ b ∧ b < p + k then Y.val.testBit (b - p) else wordBit A.pVal b) ?_ ?_
  · exact Inserted.of_words hA hp hloop.1 hloop.2
  · exact ⟨rfl, fun b _ => (if_neg (by omega)).symm⟩
  · rintro k R hk ⟨hwidth, hbits⟩
    refine ⟨(setBitVal_width _ _ _).trans hwidth, fun b hb => ?_⟩
    rw [wordBit_setBitVal (by rw [numWords_congr hwidth]; omega), bitAt_eq (by omega), hbits b hb]
    by_cases heq : b = p + k
    · have hpos : b - p = k := by omega
      rw [if_pos heq, if_pos (by omega), hpos]
    · rw [if_neg heq]
      by_cases hin : p ≤ b ∧ b < p + k
      · rw [if_pos hin, if_pos (by omega)]
      · rw [if_neg hin, if_neg (by omega)]

theorem insertBits_spec (hA : A.Valid) (hY : Y.Valid) {p : Nat} (hp : p + Y.BitWidth ≤ A.BitWidth) :
    ∃ R, insertBits A Y p = some R ∧ Inserted A Y R p := by
  have hwide := hA.width_lt
  have hsum : (Y.BitWidth + p) % 2 ^ 32 = p + Y.BitWidth := by omega
  have hlast : (p + Y.BitWidth - 1) % 2 ^ 32 = p + Y.BitWidth - 1 := Nat.mod_eq_of_lt (by omega)
  unfold insertBits whichBit whichWord APINT_BITS_PER_WORD
  dsimp only
  rw [hsum, hlast, if_pos hp]
  by_cases hzero : Y.BitWidth = 0
  · rw [if_pos hzero]
    exact ⟨A, rfl, Inserted.of_words hA hp rfl fun b _ => (if_neg (by omega)).symm⟩
  rw [if_neg hzero]
  by_cases hall : Y.BitWidth = A.BitWidth
  · rw [if_pos hall]
    have hpos : p = 0 := by omega
    subst hpos
    refine ⟨Y, rfl, hall, hY, fun b => ?_⟩
    by_cases hb : b < Y.BitWidth
    · rw [if_pos (by omega), Nat.sub_zero]
    · rw [if_neg (by omega), testBit_val_of_ge hY (Nat.not_lt.mp hb),
        testBit_val_of_ge hA (by omega)]
  rw [if_neg hall]
  by_cases hsingle : A.isSingleWord = true
  · have hone := isSingleWord_iff.mp hsingle
    have hword := inserted_in_word hA hY hp (by omega)
    have hdiv : p / 64 = 0 := by omega
    have hmod : p % 64 = p := by omega
    rw [hdiv, hmod] at hword
    rw [if_pos hsingle]
    exact ⟨_, rfl, hword⟩
  rw [if_neg hsingle]
  by_cases hsame : p / 64 = (p + Y.BitWidth - 1) / 64
  · rw [if_pos hsame]
    exact ⟨_, rfl, inserted_in_word hA hY hp (by omega)⟩
  rw [if_neg hsame]
  by_cases hlow : p % 64 = 0
  · rw [if_pos hlow]
    exact ⟨_, rfl, inserted_on_bounds hA hY hp hlow⟩
  · rw [if_neg hlow]
    exact ⟨_, rfl, inserted_by_bits hA hp⟩

theorem represents_field {n p : Nat} (hn : n < 2 ^ 32) {R : APInt}
    (hwidth : R.BitWidth = n)
    (hbits : ∀ b < n, R.val.testBit b = A.val.testBit (p + b))
    (hhigh : ∀ b, n ≤ b → R.val.testBit b = false) :
    R.Represents n (A.val / 2 ^ p % 2 ^ n) := by
  refine Represents.of_bits hn hwidth (Nat.mod_lt _ (Nat.two_pow_pos n)) fun b => ?_
  rw [Nat.testBit_mod_two_pow, Nat.testBit_div_two_pow]
  by_cases hb : b < n
  · rw [decide_eq_true hb, Bool.true_and, hbits b hb, Nat.add_comm]
  · rw [decide_eq_false hb, Bool.false_and, hhigh b (Nat.not_lt.mp hb)]

theorem extract_from_word {n p : Nat} (hn : n < 2 ^ 32) (hp : p + n ≤ A.BitWidth)
    (hone : p % 64 + n ≤ 64) :
    (ofWord n (A.pVal (p / 64) >>> (p % 64))).Represents n (A.val / 2 ^ p % 2 ^ n) := by
  have hle := width_le_words A
  refine represents_field hn (ofWord_width _ _) (fun b hb => ?_) fun b hb => ?_
  · have hdiv : (p + b) / 64 = p / 64 := by omega
    have hmod : (p + b) % 64 = p % 64 + b := by omega
    rw [testBit_ofWord, decide_eq_true hb, Bool.true_and, BitVec.getLsbD_ushiftRight,
      testBit_val_of_lt (by omega), wordBit, hdiv, hmod]
  · rw [testBit_ofWord, decide_eq_false (Nat.not_lt.mpr hb), Bool.false_and]

theorem extractSteps_word (w D : Words64) (loWord loBit NumSrcWords n : Nat) :
    ∀ i < n, upto (extractStep w loWord loBit NumSrcWords) n D i =
      (w (loWord + i) >>> loBit |||
        (if loWord + i + 1 < NumSrcWords then w (loWord + i + 1) else 0) <<< (64 - loBit)) := by
  refine upto_rule (f := extractStep w loWord loBit NumSrcWords) (n := n) (s := D)
    (fun k D' => ∀ i < k, D' i = (w (loWord + i) >>> loBit |||
      (if loWord + i + 1 < NumSrcWords then w (loWord + i + 1) else 0) <<< (64 - loBit))) ?_ ?_
  · exact fun i hi => absurd hi (Nat.not_lt_zero i)
  · intro k D' _ hdone i hi
    unfold extractStep APINT_BITS_PER_WORD
    by_cases heq : i = k
    · rw [heq, Function.update_self]
    · rw [Function.update_of_ne heq]
      exact hdone i (by omega)

theorem extract_by_words {n p : Nat} (hn : n < 2 ^ 32) (hp : p + n ≤ A.BitWidth)
    (hsingle : ¬A.isSingleWord = true) :
    (clearUnusedBits { ofWord n 0 with
      pVal := upto (extractStep A.pVal (p / 64) (p % 64) A.getNumWords) (ofWord n 0).getNumWords
        (ofWord n 0).pVal }).Represents n (A.val / 2 ^ p % 2 ^ n) := by
  have hle := width_le_words A
  have hnum := numWords_multi hsingle
  have hdst : (ofWord n 0).getNumWords = getNumWordsOf n :=
    congrArg getNumWordsOf (ofWord_width n 0)
  have hwords := getNumWordsOf_spec n
  rw [hdst]
  refine represents_field hn ((clearUnusedBits_width _).trans (ofWord_width n 0))
    (fun b hb => ?_) fun b hb => ?_
  · have hmod := Nat.mod_lt b (show 0 < 64 by decide)
    have hb' : b < (ofWord n 0).BitWidth := by rwa [ofWord_width]
    rw [testBit_clearUnusedBits, decide_eq_true hb', Bool.true_and, wordBit]
    dsimp only
    rw [extractSteps_word _ _ _ _ _ _ _ (by omega), BitVec.getLsbD_or, BitVec.getLsbD_ushiftRight,
      BitVec.getLsbD_shiftLeft, testBit_val_of_lt (by omega), wordBit]
    by_cases hlow : b % 64 < 64 - p % 64
    · have hdiv : (p + b) / 64 = p / 64 + b / 64 := by omega
      have hbit : (p + b) % 64 = p % 64 + b % 64 := by omega
      rw [decide_eq_true hlow, hdiv, hbit]
      simp
    · have hdiv : (p + b) / 64 = p / 64 + b / 64 + 1 := by omega
      have hbit : (p + b) % 64 = b % 64 - (64 - p % 64) := by omega
      rw [decide_eq_false hlow, BitVec.getLsbD_of_ge _ _ (by omega), if_pos (by omega), hdiv, hbit]
      simp [hmod]
  · have hb' : ¬b < (ofWord n 0).BitWidth := by
      rw [ofWord_width]
      exact Nat.not_lt.mpr hb
    rw [testBit_clearUnusedBits, decide_eq_false hb', Bool.false_and]

theorem extractBits_spec (hA : A.Valid) {n p : Nat} (hpos : p < A.BitWidth)
    (hp : p + n ≤ A.BitWidth) (hfield : 64 < A.BitWidth → n = 0 → p % 64 = 0 → p = 0) :
    ∃ R, extractBits A n p = some R ∧ R.Represents n (A.val / 2 ^ p % 2 ^ n) := by
  have hwide := hA.width_lt
  have hleA := width_le_words A
  have hsum : (n + p) % 2 ^ 32 = p + n := by omega
  unfold extractBits whichBit whichWord APINT_BITS_PER_WORD
  rw [hsum, if_pos ⟨hpos, hp⟩]
  by_cases hsingle : A.isSingleWord = true
  · have hone := isSingleWord_iff.mp hsingle
    have hword := extract_from_word (by omega) hp (by omega)
    have hdiv : p / 64 = 0 := by omega
    have hmod : p % 64 = p := by omega
    rw [hdiv, hmod] at hword
    rw [if_pos hsingle]
    exact ⟨_, rfl, hword⟩
  rw [if_neg hsingle]
  by_cases hsame : p / 64 = (p + n + (2 ^ 32 - 1)) % 2 ^ 32 / 64
  · rw [if_pos hsame]
    exact ⟨_, rfl, extract_from_word (by omega) hp (by omega)⟩
  rw [if_neg hsame]
  by_cases hlow : p % 64 = 0
  · rw [if_pos hlow]
    have hsize : 0 < (1 + (p + n + (2 ^ 32 - 1)) % 2 ^ 32 / 64 + (2 ^ 32 - p / 64)) % 2 ^ 32 ∨
        64 < n := by omega
    obtain ⟨R, hR, hwidth, hbits⟩ := ofArray_spec (fun i => A.pVal (p / 64 + i)) hsize
    refine ⟨R, hR, represents_field (by omega) hwidth (fun b hb => ?_) fun b hb => ?_⟩
    · have hdiv : (p + b) / 64 = p / 64 + b / 64 := by omega
      have hmod : (p + b) % 64 = b % 64 := by omega
      rw [hbits, decide_eq_true ⟨hb, by omega⟩, Bool.true_and, testBit_val_of_lt (by omega),
        wordBit, wordBit, hdiv, hmod]
    · rw [hbits, decide_eq_false fun hand => Nat.not_lt.mpr hb hand.1, Bool.false_and]
  · rw [if_neg hlow]
    exact ⟨_, rfl, extract_by_words (by omega) hp hsingle⟩

/-- What the operations that move bits return for an integer. A sign is extended where there is
one, and a field starts at a bit; an empty field on a later bound of words is not spoken of. -/
structure MovesBits (A : APInt) : Prop where
  shl : ∀ s ≤ A.BitWidth, ∃ R, A.shl s = some R ∧
    R.Represents A.BitWidth (A.val * 2 ^ s % 2 ^ A.BitWidth)
  lshr : ∀ s ≤ A.BitWidth, ∃ R, A.lshr s = some R ∧ R.Represents A.BitWidth (A.val / 2 ^ s)
  ashr : 0 < A.BitWidth → ∀ s ≤ A.BitWidth, ∃ R, A.ashr s = some R ∧
    R.Valid ∧ R.BitWidth = A.BitWidth ∧ R.sval = A.sval / 2 ^ s
  rotl : ∀ amount, ∃ R, A.rotl amount = some R ∧ R.Valid ∧ Rotated A R amount
  rotr : ∀ amount, ∃ R, A.rotr amount = some R ∧ R.Valid ∧ Rotated R A amount
  rotlBy : ∀ rotateAmt : APInt, rotateAmt.Valid →
    ∃ R, A.rotlBy rotateAmt = some R ∧ R.Valid ∧ Rotated A R rotateAmt.val
  rotrBy : ∀ rotateAmt : APInt, rotateAmt.Valid →
    ∃ R, A.rotrBy rotateAmt = some R ∧ R.Valid ∧ Rotated R A rotateAmt.val
  extractBits : ∀ n p, p < A.BitWidth → p + n ≤ A.BitWidth →
    (64 < A.BitWidth → n = 0 → p % 64 = 0 → p = 0) →
      ∃ R, A.extractBits n p = some R ∧ R.Represents n (A.val / 2 ^ p % 2 ^ n)
  insertBits : ∀ (subBits : APInt) (p : Nat), subBits.Valid → p + subBits.BitWidth ≤ A.BitWidth →
    ∃ R, A.insertBits subBits p = some R ∧ Inserted A subBits R p

theorem movesBits (hA : A.Valid) : MovesBits A where
  shl _ hs := shl_spec hA hs
  lshr _ hs := lshr_spec hA hs
  ashr hwidth _ hs := ashr_spec hA hwidth hs
  rotl := rotl_spec hA
  rotr := rotr_spec hA
  rotlBy _ hB := rotlBy_spec hA hB
  rotrBy _ hB := rotrBy_spec hA hB
  extractBits _ _ hpos hp hfield := extractBits_spec hA hpos hp hfield
  insertBits _ _ hY hp := insertBits_spec hA hY hp

/-- Two words of ones. -/
theorem movesBits_two_words : MovesBits { BitWidth := 128, pVal := fun _ => BitVec.allOnes 64 } :=
  movesBits ⟨by decide, Nat.lt_of_lt_of_eq (wordsVal_lt _ 2) (by decide)⟩

/-- No sign in a width of zero, no field at the width, and no first word of an empty array. -/
theorem movesBits_without_result :
    let zeros := fun n => ({ BitWidth := n, pVal := fun _ => 0 } : APInt)
    ((zeros 0).Valid ∧ (zeros 0).ashr 0 = none) ∧
      ((zeros 8).Valid ∧ (zeros 8).extractBits 0 8 = none) ∧
      (zeros 128).Valid ∧ (zeros 128).extractBits 0 64 = none := by
  intro zeros
  have hvalid : ∀ n < 2 ^ 32, (zeros n).Valid := by
    intro n hn
    refine valid_of_bits hn fun b _ => ?_
    have hbit : wordBit (zeros n).pVal b = false := BitVec.getLsbD_zero
    rw [testBit_val, hbit, Bool.and_false]
  exact ⟨⟨hvalid 0 (by decide), rfl⟩, ⟨hvalid 8 (by decide), rfl⟩, hvalid 128 (by decide), rfl⟩

end SmlnjLlvm.Support.APInt
