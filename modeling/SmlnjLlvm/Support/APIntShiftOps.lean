import SmlnjLlvm.Support.APIntBits
import SmlnjLlvm.Support.IntRange

/-!
# Shifts and rotations of integers of any width

One word is shifted by the machine, and more words by the loops over them. An
arithmetic shift first extends the sign into the unused bits. A rotation joins two
shifts; its amount is reduced modulo the width, also where it is an integer of
another width. An assertion that fails is no result.
-/

namespace SmlnjLlvm.Support.APInt

open Digits

/-! ## Definitions -/

def shlSlowCase (A : APInt) (ShiftAmt : Nat) : APInt :=
  clearUnusedBits { A with pVal := tcShiftLeft A.pVal A.getNumWords ShiftAmt }

def shl (A : APInt) (ShiftAmt : Nat) : Option APInt :=
  if ShiftAmt ≤ A.BitWidth then
    if A.isSingleWord then
      let VAL := if ShiftAmt = A.BitWidth then 0 else A.pVal 0 <<< ShiftAmt
      some (clearUnusedBits { A with pVal := Function.update A.pVal 0 VAL })
    else some (shlSlowCase A ShiftAmt)
  else none

def lshrSlowCase (A : APInt) (ShiftAmt : Nat) : APInt :=
  { A with pVal := tcShiftRight A.pVal A.getNumWords ShiftAmt }

def lshr (A : APInt) (ShiftAmt : Nat) : Option APInt :=
  if ShiftAmt ≤ A.BitWidth then
    if A.isSingleWord then
      let VAL := if ShiftAmt = A.BitWidth then 0 else A.pVal 0 >>> ShiftAmt
      some { A with pVal := Function.update A.pVal 0 VAL }
    else some (lshrSlowCase A ShiftAmt)
  else none

/-- A turn of the loop of `ashrSlowCase`. -/
def ashrStep (WordShift BitShift i : Nat) (pVal : Words64) : Words64 :=
  Function.update pVal i (pVal (i + WordShift) >>> BitShift |||
    pVal (i + WordShift + 1) <<< (APINT_BITS_PER_WORD - BitShift))

/-- The words that are moved, of which the last is extended by its sign. -/
def ashrMove (A : APInt) (WordShift BitShift WordsToMove : Nat) : Words64 :=
  let last := A.getNumWords - 1
  let pVal := Function.update A.pVal last
    (SignExtend64 ((A.BitWidth - 1) % APINT_BITS_PER_WORD + 1) (A.pVal last))
  if BitShift = 0 then fun i => if i < WordsToMove then pVal (i + WordShift) else pVal i
  else
    let pVal := upto (ashrStep WordShift BitShift) (WordsToMove - 1) pVal
    let pVal := Function.update pVal (WordsToMove - 1)
      (pVal (WordShift + WordsToMove - 1) >>> BitShift)
    Function.update pVal (WordsToMove - 1)
      (SignExtend64 (APINT_BITS_PER_WORD - BitShift) (pVal (WordsToMove - 1)))

def ashrSlowCase (A : APInt) (ShiftAmt : Nat) : APInt :=
  if ShiftAmt = 0 then A
  else
    let Negative := isNegative A
    let WordShift := ShiftAmt / APINT_BITS_PER_WORD
    let BitShift := ShiftAmt % APINT_BITS_PER_WORD
    let WordsToMove := A.getNumWords - WordShift
    let pVal := if WordsToMove ≠ 0 then ashrMove A WordShift BitShift WordsToMove else A.pVal
    clearUnusedBits { A with
      pVal := fun i =>
        if WordsToMove ≤ i ∧ i < WordsToMove + WordShift then
          if Negative then BitVec.allOnes 64 else 0
        else pVal i }

/-- `ashr`, by `ashrInPlace`; a width of zero has no sign to extend. -/
def ashr (A : APInt) (ShiftAmt : Nat) : Option APInt :=
  if ShiftAmt ≤ A.BitWidth then
    if A.isSingleWord then
      if 0 < A.BitWidth then
        let SExtVAL := SignExtend64 A.BitWidth (A.pVal 0)
        let VAL := if ShiftAmt = A.BitWidth then SExtVAL.sshiftRight (APINT_BITS_PER_WORD - 1)
          else SExtVAL.sshiftRight ShiftAmt
        some (clearUnusedBits { A with pVal := Function.update A.pVal 0 VAL })
      else none
    else some (ashrSlowCase A ShiftAmt)
  else none

def zext (A : APInt) (width : Nat) : Option APInt :=
  if A.BitWidth ≤ width then
    if width ≤ APINT_BITS_PER_WORD then some (ofWord width (A.pVal 0))
    else if width = A.BitWidth then some A
    else some { BitWidth := width, pVal := fun i => if i < A.getNumWords then A.pVal i else 0 }
  else none

def getZExtValue (A : APInt) : Option (BitVec 64) :=
  if A.isSingleWord then some (A.pVal 0)
  else if A.getActiveBits ≤ 64 then some (A.pVal 0)
  else none

/-- The comparison with a word; the value is not asked for when there are more active bits. -/
def ugt (A : APInt) (RHS : BitVec 64) : Option Bool :=
  if ¬A.isSingleWord ∧ 64 < A.getActiveBits then some true
  else A.getZExtValue.map fun v => decide (RHS < v)

def getLimitedValue (A : APInt) (Limit : BitVec 64) : Option (BitVec 64) := do
  if ← A.ugt Limit then some Limit else A.getZExtValue

def rotateModulo (BitWidth : Nat) (rotateAmt : APInt) : Option Nat :=
  if BitWidth = 0 then some 0
  else do
    let rot ← (if rotateAmt.BitWidth < BitWidth then zext rotateAmt BitWidth else some rotateAmt)
    let rot ← urem rot (ofWord rot.BitWidth (BitVec.ofNat 64 BitWidth))
    let value ← getLimitedValue rot (BitVec.ofNat 64 BitWidth)
    some (value.toNat % 2 ^ 32)

def rotl (A : APInt) (rotateAmt : Nat) : Option APInt :=
  if A.BitWidth = 0 then some A
  else
    let rotateAmt := rotateAmt % A.BitWidth
    if rotateAmt = 0 then some A
    else do
      let L ← shl A rotateAmt
      let R ← lshr A (A.BitWidth - rotateAmt)
      orAssign L R

def rotr (A : APInt) (rotateAmt : Nat) : Option APInt :=
  if A.BitWidth = 0 then some A
  else
    let rotateAmt := rotateAmt % A.BitWidth
    if rotateAmt = 0 then some A
    else do
      let R ← lshr A rotateAmt
      let L ← shl A (A.BitWidth - rotateAmt)
      orAssign R L

def rotlBy (A rotateAmt : APInt) : Option APInt := do
  let amount ← rotateModulo A.BitWidth rotateAmt
  rotl A amount

def rotrBy (A rotateAmt : APInt) : Option APInt := do
  let amount ← rotateModulo A.BitWidth rotateAmt
  rotr A amount

variable {A B : APInt}

theorem represents_of_val {R : APInt} {n x : Nat} (hn : n < 2 ^ 32) (hwidth : R.BitWidth = n)
    (hval : R.val = x) (hx : x < 2 ^ n) : R.Represents n x :=
  Represents.of_bits hn hwidth hx fun b => by rw [hval]

theorem val_single (hsingle : A.isSingleWord = true) : A.val = (A.pVal 0).toNat := by
  rw [val, numWords_single hsingle, wordsVal_one]

theorem shl_spec (hA : A.Valid) {s : Nat} (hs : s ≤ A.BitWidth) :
    ∃ R, shl A s = some R ∧ R.Represents A.BitWidth (A.val * 2 ^ s % 2 ^ A.BitWidth) := by
  have hdvd := two_pow_width_dvd A
  have hlt := Nat.mod_lt (A.val * 2 ^ s) (Nat.two_pow_pos A.BitWidth)
  unfold shl
  rw [if_pos hs]
  by_cases hsingle : A.isSingleWord = true
  · rw [if_pos hsingle]
    refine ⟨_, rfl, represents_of_val hA.width_lt (clearUnusedBits_width _) ?_ hlt⟩
    rw [clearUnusedBits_val, val_update_single hsingle, val_single hsingle]
    rw [numWords_single hsingle, pow_one] at hdvd
    by_cases hall : s = A.BitWidth
    · rw [if_pos hall, hall, Nat.mul_mod_left]
      exact Nat.zero_mod _
    · rw [if_neg hall, Words.toNat_shl]
      exact Nat.mod_mod_of_dvd _ hdvd
  · rw [if_neg hsingle]
    refine ⟨_, rfl, represents_of_val hA.width_lt (clearUnusedBits_width _) ?_ hlt⟩
    rw [numWords_multi hsingle, wordsVal_pow] at hdvd
    have hmulti : ¬isSingleWord { A with pVal := tcShiftLeft A.pVal A.getNumWords s } = true :=
      hsingle
    rw [shlSlowCase, clearUnusedBits_val, val, numWords_multi hmulti]
    change wordsVal (tcShiftLeft A.pVal A.getNumWords s) A.getNumWords % 2 ^ A.BitWidth = _
    rw [tcShiftLeft_spec, Nat.mod_mod_of_dvd _ hdvd, val, numWords_multi hsingle]

theorem lshr_spec (hA : A.Valid) {s : Nat} (hs : s ≤ A.BitWidth) :
    ∃ R, lshr A s = some R ∧ R.Represents A.BitWidth (A.val / 2 ^ s) := by
  have hlt : A.val / 2 ^ s < 2 ^ A.BitWidth := (Nat.div_le_self _ _).trans_lt hA.val_lt
  unfold lshr
  rw [if_pos hs]
  by_cases hsingle : A.isSingleWord = true
  · rw [if_pos hsingle]
    refine ⟨_, rfl, represents_of_val hA.width_lt rfl ?_ hlt⟩
    rw [val_update_single hsingle]
    by_cases hall : s = A.BitWidth
    · rw [if_pos hall, hall, Nat.div_eq_of_lt hA.val_lt]
      rfl
    · rw [if_neg hall, Words.toNat_shr, val_single hsingle]
  · rw [if_neg hsingle]
    have hwidth := getNumWordsOf_spec A.BitWidth
    have hle : s / 64 ≤ A.getNumWords := by
      change s / 64 ≤ getNumWordsOf A.BitWidth
      omega
    have hmulti : ¬isSingleWord (lshrSlowCase A s) = true := hsingle
    refine ⟨_, rfl, represents_of_val hA.width_lt rfl ?_ hlt⟩
    rw [val, numWords_multi hmulti, val, numWords_multi hsingle]
    exact tcShiftRight_spec A.pVal hle

/-! ## Arithmetic shifts -/

/-- The signed value. -/
def sval (A : APInt) : Int := (BitVec.ofNat A.BitWidth A.val).toInt

def signBit (A : APInt) (b : Nat) : Bool := A.val.testBit (min b (A.BitWidth - 1))

theorem getLsbD_SignExtend64 {n : Nat} (hn : 0 < n) (hle : n ≤ 64) (x : BitVec 64) {j : Nat}
    (hj : j < 64) : (SignExtend64 n x).getLsbD j = x.getLsbD (min j (n - 1)) := by
  rw [SignExtend64_eq hn hle, BitVec.getLsbD_signExtend, BitVec.msb_eq_getLsbD_last,
    BitVec.getLsbD_setWidth, BitVec.getLsbD_setWidth, decide_eq_true hj, Bool.true_and]
  by_cases hlow : j < n
  · rw [if_pos hlow, decide_eq_true hlow, Bool.true_and, Nat.min_eq_left (by omega)]
  · rw [if_neg hlow, decide_eq_true (by omega : n - 1 < n), Bool.true_and,
      Nat.min_eq_right (by omega)]

theorem isNegative_eq (hwidth : 0 < A.BitWidth) :
    isNegative A = A.val.testBit (A.BitWidth - 1) := by
  have hle := width_le_words A
  exact (testBit_val_of_lt (by omega)).symm

theorem wordBit_extended (hwidth : 0 < A.BitWidth) {b : Nat} (hb : b < 64 * A.numWords) :
    wordBit (Function.update A.pVal (A.numWords - 1)
      (SignExtend64 ((A.BitWidth - 1) % 64 + 1) (A.pVal (A.numWords - 1)))) b = signBit A b := by
  have hlast := (numWords_spec A).2 hwidth
  have hmod := Nat.mod_lt (A.BitWidth - 1) (show 0 < 64 by decide)
  have hmod' := Nat.mod_lt b (show 0 < 64 by decide)
  rw [signBit, testBit_val_of_lt (by omega), wordBit_update]
  by_cases htop : b / 64 = A.numWords - 1
  · have hmin : min b (A.BitWidth - 1) =
        64 * (A.numWords - 1) + min (b % 64) ((A.BitWidth - 1) % 64) := by omega
    rw [if_pos htop, getLsbD_SignExtend64 (Nat.succ_pos _) hmod _ hmod', hmin,
      wordBit_add _ _ (by omega), Nat.succ_sub_one]
  · rw [if_neg htop, Nat.min_eq_left (by omega)]

theorem ashrSteps_word (D : Words64) (WordShift BitShift n : Nat) :
    (∀ i < n, upto (ashrStep WordShift BitShift) n D i =
      D (i + WordShift) >>> BitShift ||| D (i + WordShift + 1) <<< (64 - BitShift)) ∧
      ∀ i, n ≤ i → upto (ashrStep WordShift BitShift) n D i = D i := by
  refine upto_rule (f := ashrStep WordShift BitShift) (n := n) (s := D)
    (fun k D' => (∀ i < k, D' i =
      D (i + WordShift) >>> BitShift ||| D (i + WordShift + 1) <<< (64 - BitShift)) ∧
      ∀ i, k ≤ i → D' i = D i) ?_ ?_
  · exact ⟨fun i hi => absurd hi (Nat.not_lt_zero i), fun _ _ => rfl⟩
  · rintro k D' - ⟨hdone, hrest⟩
    unfold ashrStep APINT_BITS_PER_WORD
    rw [hrest _ (by omega : k ≤ k + WordShift), hrest _ (by omega : k ≤ k + WordShift + 1)]
    constructor
    · intro i hi
      by_cases heq : i = k
      · rw [heq, Function.update_self]
      · rw [Function.update_of_ne heq]
        exact hdone i (by omega)
    · intro i hi
      rw [Function.update_of_ne (by omega)]
      exact hrest i (by omega)

theorem getLsbD_ashrMove (hsingle : ¬A.isSingleWord = true) {s i j : Nat}
    (hi : i < A.getNumWords - s / 64) (hj : j < 64) :
    (ashrMove A (s / 64) (s % 64) (A.getNumWords - s / 64) i).getLsbD j =
      signBit A (64 * i + j + s) := by
  have hwide := isSingleWord_iff.not.mp hsingle
  have hsplit := Nat.div_add_mod s 64
  have hmod := Nat.mod_lt s (show 0 < 64 by decide)
  have hext : ∀ k < A.getNumWords, ∀ j < 64, (Function.update A.pVal (A.getNumWords - 1)
      (SignExtend64 ((A.BitWidth - 1) % 64 + 1) (A.pVal (A.getNumWords - 1))) k).getLsbD j =
        signBit A (64 * k + j) := by
    intro k hk j hj
    rw [← numWords_multi hsingle] at hk ⊢
    rw [← wordBit_add _ _ hj, wordBit_extended (by omega) (by omega)]
  generalize hD : Function.update A.pVal (A.getNumWords - 1)
    (SignExtend64 ((A.BitWidth - 1) % 64 + 1) (A.pVal (A.getNumWords - 1))) = D at hext
  generalize hq : s / 64 = q at hsplit hi ⊢
  generalize hb : s % 64 = b at hsplit hmod ⊢
  unfold ashrMove APINT_BITS_PER_WORD
  rw [hD]
  by_cases hbits : b = 0
  · have hpos : 64 * i + j + s = 64 * (i + q) + j := by omega
    rw [if_pos hbits, if_pos hi, hext _ (by omega) _ hj, hpos]
  · obtain ⟨hdone, hrest⟩ := ashrSteps_word D q b (A.getNumWords - q - 1)
    rw [if_neg hbits, Function.update_self]
    by_cases hlast : i = A.getNumWords - q - 1
    · -- The last word ends with the sign, which is extended once more.
      rw [hlast, Function.update_self, getLsbD_SignExtend64 (by omega) (by omega) _ hj,
        hrest _ (by omega), BitVec.getLsbD_ushiftRight, hext _ (by omega) _ (by omega)]
      have hle := width_le_words A
      rw [numWords_multi hsingle] at hle
      exact congrArg A.val.testBit (by omega)
    · rw [Function.update_of_ne hlast, Function.update_of_ne hlast, hdone _ (by omega),
        BitVec.getLsbD_or, BitVec.getLsbD_ushiftRight, BitVec.getLsbD_shiftLeft]
      by_cases hlow : j < 64 - b
      · have hpos : 64 * i + j + s = 64 * (i + q) + (b + j) := by omega
        rw [decide_eq_true hlow, hext _ (by omega) _ (by omega), hpos]
        simp
      · have hpos : 64 * i + j + s = 64 * (i + q + 1) + (j - (64 - b)) := by omega
        rw [decide_eq_false hlow, decide_eq_true hj, BitVec.getLsbD_of_ge _ _ (by omega),
          hext _ (by omega) _ (by omega), hpos]
        simp

theorem getLsbD_sshiftRight_extended (hwidth : 0 < A.BitWidth) (hle : A.BitWidth ≤ 64) (s : Nat)
    {j : Nat} (hj : j < 64) : ((SignExtend64 A.BitWidth (A.pVal 0)).sshiftRight s).getLsbD j =
      A.val.testBit (min (s + j) (A.BitWidth - 1)) := by
  have hval : ∀ i, A.val.testBit i = (A.pVal 0).getLsbD i := by
    intro i
    rw [val_single (isSingleWord_iff.mpr hle), BitVec.testBit_toNat]
  rw [hval, BitVec.getLsbD_sshiftRight, BitVec.msb_eq_getLsbD_last,
    decide_eq_false (by omega : ¬64 ≤ j), Bool.not_false, Bool.true_and]
  split
  · next hin => rw [getLsbD_SignExtend64 hwidth hle _ hin]
  · next hout =>
    rw [getLsbD_SignExtend64 hwidth hle _ (by decide), Nat.min_eq_right (by omega),
      Nat.min_eq_right (by omega)]

theorem testBit_ashr (hA : A.Valid) (hwidth : 0 < A.BitWidth) {s : Nat} (hs : s ≤ A.BitWidth) :
    ∃ R, ashr A s = some R ∧ R.BitWidth = A.BitWidth ∧
      ∀ b, R.val.testBit b = (decide (b < A.BitWidth) && signBit A (b + s)) := by
  unfold ashr
  rw [if_pos hs]
  by_cases hsingle : A.isSingleWord = true
  · have hle := isSingleWord_iff.mp hsingle
    rw [if_pos hsingle, if_pos hwidth]
    refine ⟨_, rfl, clearUnusedBits_width _, fun b => ?_⟩
    rw [testBit_clearUnusedBits, wordBit_update]
    by_cases hb : b < A.BitWidth
    · have hdiv : b / 64 = 0 := by omega
      have hmod : b % 64 = b := by omega
      rw [if_pos hdiv, hmod, decide_eq_true hb, Bool.true_and, Bool.true_and]
      split
      · rw [getLsbD_sshiftRight_extended hwidth hle _ (by omega)]
        exact congrArg A.val.testBit (by unfold APINT_BITS_PER_WORD; omega)
      · rw [getLsbD_sshiftRight_extended hwidth hle _ (by omega)]
        exact congrArg A.val.testBit (by omega)
    · rw [decide_eq_false hb, Bool.false_and, Bool.false_and]
  · rw [if_neg hsingle]
    unfold ashrSlowCase
    by_cases hzero : s = 0
    · rw [if_pos hzero, hzero]
      refine ⟨_, rfl, rfl, fun b => ?_⟩
      by_cases hb : b < A.BitWidth
      · rw [decide_eq_true hb, Bool.true_and, signBit, Nat.add_zero, Nat.min_eq_left (by omega)]
      · rw [decide_eq_false hb, Bool.false_and, testBit_val_of_ge hA (Nat.not_lt.mp hb)]
    · rw [if_neg hzero]
      refine ⟨_, rfl, clearUnusedBits_width _, fun b => ?_⟩
      rw [testBit_clearUnusedBits]
      by_cases hb : b < A.BitWidth
      · rw [decide_eq_true hb, Bool.true_and, Bool.true_and]
        have hwords : A.BitWidth ≤ 64 * A.getNumWords ∧ 64 * A.getNumWords < A.BitWidth + 64 :=
          getNumWordsOf_spec A.BitWidth
        have hmod := Nat.mod_lt b (show 0 < 64 by decide)
        unfold wordBit APINT_BITS_PER_WORD
        dsimp only
        by_cases hmoved : b / 64 < A.getNumWords - s / 64
        · have hpos : 64 * (b / 64) + b % 64 + s = b + s := by omega
          rw [if_neg (by omega), if_pos (by omega), getLsbD_ashrMove hsingle hmoved hmod, hpos]
        · rw [if_pos (by omega), signBit, Nat.min_eq_right (by omega), ← isNegative_eq hwidth]
          cases isNegative A
          · exact BitVec.getLsbD_zero
          · rw [if_pos rfl, BitVec.getLsbD_allOnes, decide_eq_true hmod]
      · rw [decide_eq_false hb, Bool.false_and, Bool.false_and]

theorem ashr_spec (hA : A.Valid) (hwidth : 0 < A.BitWidth) {s : Nat} (hs : s ≤ A.BitWidth) :
    ∃ R, ashr A s = some R ∧ R.Valid ∧ R.BitWidth = A.BitWidth ∧ R.sval = A.sval / 2 ^ s := by
  obtain ⟨R, hR, hRwidth, hbits⟩ := testBit_ashr hA hwidth hs
  refine ⟨R, hR, ?_, hRwidth, ?_⟩
  · refine valid_of_bits (by rw [hRwidth]; exact hA.width_lt) fun b hb => ?_
    rw [hRwidth] at hb
    rw [hbits, decide_eq_false (Nat.not_lt.mpr hb), Bool.false_and]
  · have hword : BitVec.ofNat A.BitWidth R.val = (BitVec.ofNat A.BitWidth A.val).sshiftRight s := by
      apply BitVec.eq_of_getLsbD_eq
      intro i hi
      rw [BitVec.getLsbD_ofNat, BitVec.getLsbD_sshiftRight, BitVec.msb_eq_getLsbD_last,
        BitVec.getLsbD_ofNat, BitVec.getLsbD_ofNat, hbits, signBit, decide_eq_true hi,
        decide_eq_true (by omega : A.BitWidth - 1 < A.BitWidth),
        decide_eq_false (by omega : ¬A.BitWidth ≤ i)]
      simp only [Bool.true_and, Bool.not_false]
      split
      · next hin => rw [decide_eq_true hin, Bool.true_and, Nat.min_eq_left (by omega), Nat.add_comm]
      · next hout => rw [Nat.min_eq_right (by omega)]
    rw [sval, sval, hRwidth, hword, BitVec.toInt_sshiftRight, Int.shiftRight_eq_div_pow]
    rfl

/-- The bits of the first integer are those of the second, moved up around the width. -/
structure Rotated (A R : APInt) (amount : Nat) : Prop where
  width : R.BitWidth = A.BitWidth
  bits : ∀ i < A.BitWidth, R.val.testBit ((i + amount) % A.BitWidth) = A.val.testBit i

theorem Rotated.refl_of_mod {amount : Nat} (h : A.BitWidth = 0 ∨ amount % A.BitWidth = 0) :
    Rotated A A amount := by
  refine ⟨rfl, fun i hi => ?_⟩
  rcases h with hzero | hzero
  · omega
  · rw [Nat.add_mod, hzero, Nat.add_zero, Nat.mod_mod, Nat.mod_eq_of_lt hi]

theorem Rotated.congr_mod {R : APInt} {m n : Nat} (h : Rotated A R m)
    (heq : m % A.BitWidth = n % A.BitWidth) : Rotated A R n := by
  refine ⟨h.width, fun i hi => ?_⟩
  rw [Nat.add_mod, ← heq, ← Nat.add_mod]
  exact h.bits i hi

theorem join_shifts (hA : A.Valid) {r : Nat} (hr : r ≤ A.BitWidth) {L H : APInt}
    (hL : L.Represents A.BitWidth (A.val * 2 ^ r % 2 ^ A.BitWidth))
    (hH : H.Represents A.BitWidth (A.val / 2 ^ (A.BitWidth - r))) (b : Nat) :
    (L.val.testBit b || H.val.testBit b) =
      (decide (b < A.BitWidth) &&
        if r ≤ b then A.val.testBit (b - r) else A.val.testBit (b + (A.BitWidth - r))) := by
  rw [hL.val_eq, hH.val_eq, Nat.testBit_mod_two_pow, Nat.testBit_mul_two_pow,
    Nat.testBit_div_two_pow]
  by_cases hb : b < A.BitWidth
  · by_cases hle : r ≤ b
    · rw [decide_eq_true hb, decide_eq_true hle, if_pos hle,
        testBit_val_of_ge hA (by omega : A.BitWidth ≤ b + (A.BitWidth - r))]
      simp
    · rw [decide_eq_false hle, if_neg hle]
      simp [hb]
  · rw [decide_eq_false hb, testBit_val_of_ge hA (by omega : A.BitWidth ≤ b + (A.BitWidth - r))]
    simp

theorem rotated_of_join (hA : A.Valid) {r : Nat} (hr : r ≤ A.BitWidth) {R : APInt}
    (hwidth : R.BitWidth = A.BitWidth)
    (hbits : ∀ b, R.val.testBit b = (decide (b < A.BitWidth) &&
      if r ≤ b then A.val.testBit (b - r) else A.val.testBit (b + (A.BitWidth - r)))) :
    R.Valid ∧ Rotated A R r := by
  refine ⟨valid_of_bits (by rw [hwidth]; exact hA.width_lt) fun b hb => ?_, hwidth, fun i hi => ?_⟩
  · rw [hwidth] at hb
    rw [hbits, decide_eq_false (Nat.not_lt.mpr hb), Bool.false_and]
  · rw [hbits, decide_eq_true (Nat.mod_lt _ (by omega)), Bool.true_and]
    by_cases hin : i + r < A.BitWidth
    · rw [Nat.mod_eq_of_lt hin, if_pos (Nat.le_add_left r i), Nat.add_sub_cancel]
    · have hmod : (i + r) % A.BitWidth = i + r - A.BitWidth := by
        rw [Nat.mod_eq_sub_mod (by omega), Nat.mod_eq_of_lt (by omega)]
      have hback : i + r - A.BitWidth + (A.BitWidth - r) = i := by omega
      rw [hmod, if_neg (by omega), hback]

theorem Rotated.symm {R : APInt} {m : Nat} (h : Rotated A R m) (hm : m ≤ A.BitWidth) :
    Rotated R A (A.BitWidth - m) := by
  refine ⟨h.width.symm, fun i hi => ?_⟩
  rw [h.width] at hi ⊢
  have hlt : (i + (A.BitWidth - m)) % A.BitWidth < A.BitWidth := Nat.mod_lt _ (by omega)
  have hpos : ((i + (A.BitWidth - m)) % A.BitWidth + m) % A.BitWidth = i := by
    have hsum : i + (A.BitWidth - m) + m = i + A.BitWidth := by omega
    rw [Nat.mod_add_mod, hsum, Nat.add_mod_right, Nat.mod_eq_of_lt hi]
  have hbit := h.bits _ hlt
  rw [hpos] at hbit
  exact hbit.symm

theorem rotl_spec (hA : A.Valid) (amount : Nat) :
    ∃ R, rotl A amount = some R ∧ R.Valid ∧ Rotated A R amount := by
  unfold rotl
  by_cases hzero : A.BitWidth = 0
  · rw [if_pos hzero]
    exact ⟨A, rfl, hA, Rotated.refl_of_mod (Or.inl hzero)⟩
  · rw [if_neg hzero]
    by_cases hnone : amount % A.BitWidth = 0
    · rw [if_pos hnone]
      exact ⟨A, rfl, hA, Rotated.refl_of_mod (Or.inr hnone)⟩
    · have hr := Nat.mod_lt amount (Nat.pos_of_ne_zero hzero)
      obtain ⟨L, hL, hLrep⟩ := shl_spec hA hr.le
      obtain ⟨H, hH, hHrep⟩ := lshr_spec hA (Nat.sub_le A.BitWidth (amount % A.BitWidth))
      obtain ⟨R, hR, hwidth, hbits⟩ := orAssign_spec (hLrep.width.trans hHrep.width.symm)
      rw [if_neg hnone, hL, hH]
      refine ⟨R, hR, ?_⟩
      obtain ⟨hvalid, hrot⟩ := rotated_of_join hA hr.le (hwidth.trans hLrep.width)
        fun b => (hbits b).trans (join_shifts hA hr.le hLrep hHrep b)
      exact ⟨hvalid, hrot.congr_mod (Nat.mod_mod _ _)⟩

theorem rotr_spec (hA : A.Valid) (amount : Nat) :
    ∃ R, rotr A amount = some R ∧ R.Valid ∧ Rotated R A amount := by
  unfold rotr
  by_cases hzero : A.BitWidth = 0
  · rw [if_pos hzero]
    exact ⟨A, rfl, hA, Rotated.refl_of_mod (Or.inl hzero)⟩
  · rw [if_neg hzero]
    by_cases hnone : amount % A.BitWidth = 0
    · rw [if_pos hnone]
      exact ⟨A, rfl, hA, Rotated.refl_of_mod (Or.inr hnone)⟩
    · have hr := Nat.mod_lt amount (Nat.pos_of_ne_zero hzero)
      have hle := Nat.sub_le A.BitWidth (amount % A.BitWidth)
      have hback := Nat.sub_sub_self hr.le
      obtain ⟨H, hH, hHrep⟩ := lshr_spec hA hr.le
      obtain ⟨L, hL, hLrep⟩ := shl_spec hA hle
      obtain ⟨R, hR, hwidth, hbits⟩ := orAssign_spec (hHrep.width.trans hLrep.width.symm)
      rw [if_neg hnone, hL, hH]
      refine ⟨R, hR, ?_⟩
      have hjoin := join_shifts hA hle hLrep (by rwa [hback])
      obtain ⟨hvalid, hrot⟩ := rotated_of_join hA hle (hwidth.trans hHrep.width) fun b => by
        rw [hbits, Bool.or_comm, hjoin]
      have hsymm := hrot.symm hle
      rw [hback] at hsymm
      exact ⟨hvalid, hsymm.congr_mod (by rw [hrot.width, Nat.mod_mod])⟩

/-! ## Amounts -/

theorem toNat_first_word (A : APInt) : (A.pVal 0).toNat = A.val % 2 ^ 64 := by
  have hpos := (numWords_spec A).1
  apply Nat.eq_of_testBit_eq
  intro b
  rw [Nat.testBit_mod_two_pow, BitVec.testBit_toNat]
  by_cases hb : b < 64
  · have hbit := wordBit_add A.pVal 0 hb
    rw [Nat.mul_zero, Nat.zero_add] at hbit
    rw [decide_eq_true hb, Bool.true_and, testBit_val_of_lt (by omega), hbit]
  · rw [decide_eq_false hb, Bool.false_and, BitVec.getLsbD_of_ge _ _ (Nat.not_lt.mp hb)]

theorem zext_spec (hA : A.Valid) {width : Nat} (hle : A.BitWidth ≤ width) (hn : width < 2 ^ 32) :
    ∃ R, zext A width = some R ∧ R.Represents width A.val := by
  have hlt : A.val < 2 ^ width :=
    Nat.lt_of_lt_of_le hA.val_lt (Nat.pow_le_pow_right (by decide) hle)
  unfold zext APINT_BITS_PER_WORD
  rw [if_pos hle]
  by_cases hword : width ≤ 64
  · have hsingle : A.isSingleWord = true := isSingleWord_iff.mpr (by omega)
    rw [if_pos hword]
    refine ⟨_, rfl, ?_⟩
    rw [val_single hsingle] at hlt ⊢
    exact Represents.ofWord hn hlt
  · rw [if_neg hword]
    by_cases heq : width = A.BitWidth
    · rw [if_pos heq]
      exact ⟨A, rfl, heq ▸ hA.represents⟩
    · rw [if_neg heq]
      refine ⟨_, rfl, Represents.of_bits hn rfl hlt fun b => ?_⟩
      have hwords := getNumWordsOf_spec A.BitWidth
      have hwords' := getNumWordsOf_spec width
      have hmulti : ¬isSingleWord { BitWidth := width, pVal :=
          fun i => if i < A.getNumWords then A.pVal i else 0 } = true :=
        isSingleWord_iff.not.mpr hword
      rw [testBit_val, numWords_multi hmulti]
      rw [wordBit_below]
      by_cases hb : b < 64 * A.getNumWords
      · have hnum : A.getNumWords ≤ A.numWords := by
          unfold numWords
          split
          · next hsingle =>
            rw [isSingleWord_iff] at hsingle
            unfold getNumWords
            omega
          · exact Nat.le_refl _
        have hin : b < 64 * getNumWordsOf width := by
          unfold getNumWords at hb
          omega
        rw [decide_eq_true hb, Bool.true_and, ← testBit_val_of_lt (by omega)]
        exact (congrArg (· && A.val.testBit b) (decide_eq_true hin)).trans (Bool.true_and _)
      · have hout : A.BitWidth ≤ b := by
          unfold getNumWords at hb
          omega
        rw [decide_eq_false hb, Bool.false_and, Bool.and_false, testBit_val_of_ge hA hout]

theorem getActiveBits_gt_iff (hA : A.Valid) (hsingle : ¬A.isSingleWord = true) :
    64 < A.getActiveBits ↔ 2 ^ 64 ≤ A.val := by
  rw [getActiveBits_eq hA hsingle, Nat.lt_size]

theorem getZExtValue_spec (hA : A.Valid) (hlt : A.val < 2 ^ 64) :
    A.getZExtValue = some (BitVec.ofNat 64 A.val) := by
  have hword : A.pVal 0 = BitVec.ofNat 64 A.val := by
    apply BitVec.eq_of_toNat_eq
    rw [toNat_first_word, BitVec.toNat_ofNat]
  unfold getZExtValue
  by_cases hsingle : A.isSingleWord = true
  · rw [if_pos hsingle, hword]
  · have hactive := (getActiveBits_gt_iff hA hsingle).not
    rw [if_neg hsingle, if_pos (by omega), hword]

theorem getLimitedValue_spec (hA : A.Valid) (Limit : BitVec 64) :
    getLimitedValue A Limit = some (BitVec.ofNat 64 (min A.val Limit.toNat)) := by
  unfold getLimitedValue ugt
  by_cases hlarge : 2 ^ 64 ≤ A.val
  · have hsingle : ¬A.isSingleWord = true := by
      intro hsingle
      have hword := (A.pVal 0).isLt
      rw [val_single hsingle] at hlarge
      omega
    have hactive := (getActiveBits_gt_iff hA hsingle).mpr hlarge
    rw [if_pos ⟨hsingle, hactive⟩, Nat.min_eq_right (by omega), BitVec.ofNat_toNat,
      BitVec.setWidth_eq]
    rfl
  · have hvalue := getZExtValue_spec hA (Nat.not_le.mp hlarge)
    have hnone : ¬(¬A.isSingleWord = true ∧ 64 < A.getActiveBits) := by
      rintro ⟨hsingle, hactive⟩
      exact hlarge ((getActiveBits_gt_iff hA hsingle).mp hactive)
    have hword : (BitVec.ofNat 64 A.val).toNat = A.val := by
      rw [BitVec.toNat_ofNat, Nat.mod_eq_of_lt (Nat.not_le.mp hlarge)]
    rw [if_neg hnone, hvalue, Option.map_some, Loop.some_bind]
    split
    · next hlt =>
      rw [decide_eq_true_iff, BitVec.lt_def, hword] at hlt
      rw [Nat.min_eq_right (Nat.le_of_lt hlt), BitVec.ofNat_toNat, BitVec.setWidth_eq]
    · next hge =>
      rw [decide_eq_true_iff, BitVec.lt_def, hword] at hge
      rw [Nat.min_eq_left (Nat.not_lt.mp hge)]

theorem rotateModulo_spec (hB : B.Valid) {n : Nat} (hn : n < 2 ^ 32) :
    ∃ amount, rotateModulo n B = some amount ∧ (0 < n → amount = B.val % n) := by
  unfold rotateModulo
  by_cases hzero : n = 0
  · rw [if_pos hzero]
    exact ⟨0, rfl, fun hpos => absurd hzero (Nat.ne_of_gt hpos)⟩
  · have hpos := Nat.pos_of_ne_zero hzero
    have hrot : ∃ rot, (if B.BitWidth < n then zext B n else some B) = some rot ∧
        rot.Valid ∧ n ≤ rot.BitWidth ∧ rot.val = B.val := by
      by_cases hless : B.BitWidth < n
      · obtain ⟨R, hR, hRrep⟩ := zext_spec hB hless.le hn
        rw [if_pos hless]
        exact ⟨R, hR, hRrep.valid, hRrep.width.ge, hRrep.val_eq⟩
      · rw [if_neg hless]
        exact ⟨B, rfl, hB, Nat.not_lt.mp hless, rfl⟩
    obtain ⟨rot, hrot, hvalid, hle, hval⟩ := hrot
    have hword : (BitVec.ofNat 64 n).toNat = n := by
      rw [BitVec.toNat_ofNat, Nat.mod_eq_of_lt (by omega)]
    have hfits : (BitVec.ofNat 64 n).toNat < 2 ^ rot.BitWidth := by
      rw [hword]
      exact Nat.lt_of_le_of_lt hle Nat.lt_two_pow_self
    obtain ⟨hwvalid, hwwidth, hwval⟩ := ofWord_valid hvalid.width_lt hfits
    rw [hword] at hwval
    obtain ⟨R, hR, hRrep⟩ := urem_spec ⟨hvalid, hwvalid, hwwidth.symm, by rwa [hwval]⟩
    have hlt := Nat.mod_lt B.val hpos
    have hmod : R.val = B.val % n := by rw [hRrep.val_eq, hwval, hval]
    rw [if_neg hzero, hrot, Loop.some_bind, hR, Loop.some_bind, getLimitedValue_spec hRrep.valid, hword, hmod, Nat.min_eq_left hlt.le]
    refine ⟨_, rfl, fun _ => ?_⟩
    rw [BitVec.toNat_ofNat, Nat.mod_eq_of_lt (by omega), Nat.mod_eq_of_lt (by omega)]

theorem rotlBy_spec (hA : A.Valid) (hB : B.Valid) :
    ∃ R, rotlBy A B = some R ∧ R.Valid ∧ Rotated A R B.val := by
  obtain ⟨amount, hamount, hmod⟩ := rotateModulo_spec hB hA.width_lt
  obtain ⟨R, hR, hvalid, hrot⟩ := rotl_spec hA amount
  rw [rotlBy, hamount]
  refine ⟨R, hR, hvalid, ?_⟩
  rcases Nat.eq_zero_or_pos A.BitWidth with hzero | hpos
  · exact ⟨hrot.width, fun i hi => absurd hi (by omega)⟩
  · exact hrot.congr_mod (by rw [hmod hpos, Nat.mod_mod])

theorem rotrBy_spec (hA : A.Valid) (hB : B.Valid) :
    ∃ R, rotrBy A B = some R ∧ R.Valid ∧ Rotated R A B.val := by
  obtain ⟨amount, hamount, hmod⟩ := rotateModulo_spec hB hA.width_lt
  obtain ⟨R, hR, hvalid, hrot⟩ := rotr_spec hA amount
  rw [rotrBy, hamount]
  refine ⟨R, hR, hvalid, ?_⟩
  rcases Nat.eq_zero_or_pos A.BitWidth with hzero | hpos
  · exact ⟨hrot.width, fun i hi => absurd hi (by rw [← hrot.width]; omega)⟩
  · exact hrot.congr_mod (by rw [← hrot.width, hmod hpos, Nat.mod_mod])

end SmlnjLlvm.Support.APInt
