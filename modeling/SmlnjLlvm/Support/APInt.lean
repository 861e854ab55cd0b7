import SmlnjLlvm.Library.Digits
import SmlnjLlvm.Support.MathExtras
import Mathlib.Data.Nat.Size

/-!
# Integers of any width

An integer is kept in words of 64 bits, of which the last may have unused bits.
A width of at most 64 has one word, which the source keeps in place of the
pointer.
-/

namespace SmlnjLlvm.Support

open Digits

abbrev Words64 := Nat → BitVec 64

def APINT_BITS_PER_WORD : Nat := 64

def APInt.getNumWordsOf (BitWidth : Nat) : Nat :=
  (BitWidth + APINT_BITS_PER_WORD - 1) / APINT_BITS_PER_WORD

/-- `pVal` at `0` is `VAL` where there is one word. -/
structure APInt where
  BitWidth : Nat
  pVal : Words64

variable {A : APInt} {n : Nat} {w : Words64}

namespace APInt

def isSingleWord (A : APInt) : Bool := decide (A.BitWidth ≤ APINT_BITS_PER_WORD)

def getNumWords (A : APInt) : Nat := getNumWordsOf A.BitWidth

def clearUnusedBits (A : APInt) : APInt :=
  let WordBits := (A.BitWidth - 1) % APINT_BITS_PER_WORD + 1
  let mask : BitVec 64 :=
    if A.BitWidth = 0 then 0 else BitVec.allOnes 64 >>> (APINT_BITS_PER_WORD - WordBits)
  if A.isSingleWord then { A with pVal := Function.update A.pVal 0 (A.pVal 0 &&& mask) }
  else
    { A with
      pVal := Function.update A.pVal (A.getNumWords - 1) (A.pVal (A.getNumWords - 1) &&& mask) }

def ofWord (numBits : Nat) (val : BitVec 64) : APInt :=
  clearUnusedBits { BitWidth := numBits, pVal := Function.update (fun _ => 0) 0 val }

def reallocate (getMemory : Words64) (NewBitWidth : Nat) (A : APInt) : APInt :=
  if A.getNumWords = getNumWordsOf NewBitWidth then { A with BitWidth := NewBitWidth }
  else { BitWidth := NewBitWidth, pVal := getMemory }

def clearWords (pVal : Words64) (lo hi : Nat) : Words64 := fun i =>
  if lo ≤ i ∧ i < hi then 0 else pVal i

def assignWord (A : APInt) (RHS : BitVec 64) : APInt :=
  if A.isSingleWord then clearUnusedBits { A with pVal := Function.update A.pVal 0 RHS }
  else { A with pVal := clearWords (Function.update A.pVal 0 RHS) 1 A.getNumWords }

def countLeadingZeros (pVal : Words64) : Nat → Nat → Nat
  | 0, Count => Count
  | i + 1, Count =>
    if pVal i = 0 then countLeadingZeros pVal i ((Count + APINT_BITS_PER_WORD) % 2 ^ 32)
    else (Count + Support.countl_zero (pVal i)) % 2 ^ 32

def countLeadingZerosSlowCase (A : APInt) : Nat :=
  let Count := countLeadingZeros A.pVal A.getNumWords 0
  let Mod := A.BitWidth % APINT_BITS_PER_WORD
  (Count + 2 ^ 32 - (if 0 < Mod then APINT_BITS_PER_WORD - Mod else 0)) % 2 ^ 32

def countl_zero (A : APInt) : Nat :=
  if A.isSingleWord then
    let unusedBits := APINT_BITS_PER_WORD - A.BitWidth
    (Support.countl_zero (A.pVal 0) + 2 ^ 32 - unusedBits) % 2 ^ 32
  else A.countLeadingZerosSlowCase

def getActiveBits (A : APInt) : Nat := (A.BitWidth + 2 ^ 32 - A.countl_zero) % 2 ^ 32

def tcCompare (lhs rhs : Words64) : Nat → Int
  | 0 => 0
  | parts + 1 =>
    if lhs parts ≠ rhs parts then if rhs parts < lhs parts then 1 else -1
    else tcCompare lhs rhs parts

def compare (A RHS : APInt) : Int :=
  if A.isSingleWord then
    if A.pVal 0 < RHS.pVal 0 then -1 else if RHS.pVal 0 < A.pVal 0 then 1 else 0
  else tcCompare A.pVal RHS.pVal A.getNumWords

def ult (A RHS : APInt) : Bool := decide (A.compare RHS < 0)

def equalSlowCase (A RHS : APInt) : Bool :=
  (List.range A.getNumWords).all fun i => A.pVal i == RHS.pVal i

def eq (A RHS : APInt) : Bool :=
  if A.isSingleWord then A.pVal 0 == RHS.pVal 0 else equalSlowCase A RHS

def wordsVal (w : Words64) (n : Nat) : Nat := value (2 ^ 64) (fun i => (w i).toNat) 0 n

def numWords (A : APInt) : Nat := if A.isSingleWord then 1 else A.getNumWords

def val (A : APInt) : Nat := wordsVal A.pVal A.numWords

/-- A width of the source's type, and unused bits that are zero. -/
structure Valid (A : APInt) : Prop where
  width_lt : A.BitWidth < 2 ^ 32
  val_lt : A.val < 2 ^ A.BitWidth

theorem wordsVal_lt (w : Words64) (n : Nat) : wordsVal w n < (2 ^ 64) ^ n :=
  value_lt fun i _ => (w (0 + i)).isLt

theorem wordsVal_succ (w : Words64) (n : Nat) :
    wordsVal w (n + 1) = wordsVal w n + (w n).toNat * (2 ^ 64) ^ n := by
  unfold wordsVal
  rw [value_succ, Nat.zero_add]

theorem wordsVal_congr {w' : Words64} (h : ∀ i < n, w i = w' i) :
    wordsVal w n = wordsVal w' n := by
  apply value_congr
  intro i hi
  rw [Nat.zero_add]
  exact congrArg BitVec.toNat (h i hi)

theorem wordsVal_one (w : Words64) : wordsVal w 1 = (w 0).toNat := value_one 0

theorem wordsVal_of_zeros {m : Nat} (hle : n ≤ m) (h : ∀ i, n ≤ i → i < m → w i = 0) :
    wordsVal w m = wordsVal w n := by
  apply value_of_zeros hle
  intro i hi hm
  rw [Nat.zero_add, h i hi hm]
  rfl

theorem le_wordsVal {i : Nat} (hi : i < n) (h : w i ≠ 0) : (2 ^ 64) ^ i ≤ wordsVal w n := by
  have hle := le_value (b := 2 ^ 64) (d := fun i => (w i).toNat) 0 hi
  rw [Nat.zero_add] at hle
  exact Nat.le_trans (Nat.le_mul_of_pos_left _ (toNat_ne_zero.mp h)) hle

theorem eq_zero_of_wordsVal_lt {i : Nat} (hi : i < n) (h : wordsVal w n < (2 ^ 64) ^ i) :
    w i = 0 := by
  by_contra hne
  exact Nat.not_lt.mpr (le_wordsVal hi hne) h

theorem wordsVal_word (v : BitVec 64) (hn : 0 < n) :
    wordsVal (Function.update (fun _ => 0) 0 v) n = v.toNat := by
  rw [wordsVal_of_zeros hn, wordsVal_one, Function.update_self]
  intro i hi _
  exact Function.update_of_ne (by omega) _ _

theorem isSingleWord_iff : A.isSingleWord = true ↔ A.BitWidth ≤ 64 :=
  decide_eq_true_iff

theorem numWords_single (h : A.isSingleWord = true) : A.numWords = 1 := if_pos h

theorem numWords_multi (h : ¬A.isSingleWord = true) : A.numWords = A.getNumWords :=
  if_neg h

theorem getNumWordsOf_spec (BitWidth : Nat) :
    BitWidth ≤ 64 * getNumWordsOf BitWidth ∧ 64 * getNumWordsOf BitWidth < BitWidth + 64 := by
  unfold getNumWordsOf APINT_BITS_PER_WORD
  omega

theorem getNumWordsOf_le_iff {BitWidth : Nat} :
    getNumWordsOf BitWidth ≤ n ↔ BitWidth ≤ 64 * n := by
  have h := getNumWordsOf_spec BitWidth
  omega

theorem one_lt_getNumWords (h : ¬A.isSingleWord = true) : 1 < A.getNumWords := by
  have hspec := getNumWordsOf_spec A.BitWidth
  rw [isSingleWord_iff] at h
  unfold getNumWords
  omega

theorem numWords_spec (A : APInt) :
    0 < A.numWords ∧ (0 < A.BitWidth →
      64 * (A.numWords - 1) + ((A.BitWidth - 1) % 64 + 1) = A.BitWidth) := by
  unfold numWords
  by_cases h : A.isSingleWord = true
  · rw [if_pos h]
    rw [isSingleWord_iff] at h
    omega
  · rw [if_neg h]
    rw [isSingleWord_iff] at h
    unfold getNumWords getNumWordsOf APINT_BITS_PER_WORD
    omega

theorem wordsVal_pow (n : Nat) : (2 ^ 64) ^ n = 2 ^ (64 * n) := (pow_mul 2 64 n).symm

theorem toNat_and_allOnes_shift (x : BitVec 64) (hn : n ≤ 64) :
    (x &&& BitVec.allOnes 64 >>> (64 - n)).toNat = x.toNat % 2 ^ n := by
  have hsplit : 2 ^ (64 - n) * 2 ^ n = 2 ^ 64 := by
    rw [← Nat.pow_add, Nat.sub_add_cancel hn]
  have hmask : (BitVec.allOnes 64 >>> (64 - n)).toNat = 2 ^ n - 1 := by
    rw [BitVec.toNat_ushiftRight, BitVec.toNat_allOnes, Nat.shiftRight_eq_div_pow, ← hsplit]
    have hpos := Nat.two_pow_pos (64 - n)
    have hpos' := Nat.two_pow_pos n
    apply Nat.div_eq_of_lt_le
    · rw [Nat.sub_mul, Nat.mul_comm]
      omega
    · rw [Nat.sub_add_cancel hpos', Nat.mul_comm]
      have hprod := Nat.mul_pos hpos' hpos
      omega
  rw [BitVec.toNat_and, hmask, Nat.and_two_pow_sub_one_eq_mod]

theorem and_allOnes_shift {x : BitVec 64} (hn : n ≤ 64) (hx : x.toNat < 2 ^ n) :
    x &&& BitVec.allOnes 64 >>> (64 - n) = x := by
  apply BitVec.eq_of_toNat_eq
  rw [toNat_and_allOnes_shift x hn, Nat.mod_eq_of_lt hx]

theorem clearUnusedBits_eq_self (h : A.val < 2 ^ A.BitWidth) : clearUnusedBits A = A := by
  obtain ⟨hpos, hbits⟩ := numWords_spec A
  have hform : ∀ mask : BitVec 64, A.pVal (A.numWords - 1) &&& mask = A.pVal (A.numWords - 1) →
      (if A.isSingleWord then { A with pVal := Function.update A.pVal 0 (A.pVal 0 &&& mask) }
        else { A with
          pVal := Function.update A.pVal (A.getNumWords - 1)
            (A.pVal (A.getNumWords - 1) &&& mask) }) = A := by
    intro mask hmask
    by_cases hsingle : A.isSingleWord = true
    · rw [numWords_single hsingle, Nat.sub_self] at hmask
      rw [if_pos hsingle, hmask, Function.update_eq_self]
    · rw [numWords_multi hsingle] at hmask
      rw [if_neg hsingle, hmask, Function.update_eq_self]
  apply hform
  have hsucc : A.numWords = A.numWords - 1 + 1 := by omega
  have hval : A.val = wordsVal A.pVal (A.numWords - 1) +
      (A.pVal (A.numWords - 1)).toNat * 2 ^ (64 * (A.numWords - 1)) := by
    unfold val
    rw [hsucc, wordsVal_succ, wordsVal_pow, Nat.add_sub_cancel]
  by_cases hzero : A.BitWidth = 0
  · rw [if_pos hzero]
    rw [hzero, pow_zero, Nat.lt_one_iff] at h
    have hword : (A.pVal (A.numWords - 1)).toNat = 0 := by
      by_contra hne
      have hmul := Nat.mul_pos (Nat.pos_of_ne_zero hne)
        (Nat.two_pow_pos (64 * (A.numWords - 1)))
      omega
    have hnull : A.pVal (A.numWords - 1) = 0 := BitVec.eq_of_toNat_eq hword
    rw [hnull]
    rfl
  · rw [if_neg hzero]
    have hlast := hbits (Nat.pos_of_ne_zero hzero)
    apply and_allOnes_shift
    · have hmod := Nat.mod_lt (A.BitWidth - 1) (by decide : 0 < 64)
      unfold APINT_BITS_PER_WORD
      omega
    · apply Nat.lt_of_mul_lt_mul_right (a := 2 ^ (64 * (A.numWords - 1)))
      unfold APINT_BITS_PER_WORD
      rw [← Nat.pow_add, Nat.add_comm, hlast]
      omega

theorem ofWord_eq {numBits : Nat} {v : BitVec 64} (h : v.toNat < 2 ^ numBits) :
    ofWord numBits v = { BitWidth := numBits, pVal := Function.update (fun _ => 0) 0 v } := by
  apply clearUnusedBits_eq_self
  unfold val
  rw [wordsVal_word v (numWords_spec _).1]
  exact h

theorem ofWord_valid {numBits : Nat} {v : BitVec 64} (hn : numBits < 2 ^ 32)
    (h : v.toNat < 2 ^ numBits) :
    (ofWord numBits v).Valid ∧ (ofWord numBits v).BitWidth = numBits ∧
      (ofWord numBits v).val = v.toNat := by
  have hval : (ofWord numBits v).val = v.toNat := by
    rw [ofWord_eq h]
    exact wordsVal_word v (numWords_spec _).1
  have hwidth : (ofWord numBits v).BitWidth = numBits := by rw [ofWord_eq h]
  refine ⟨⟨?_, ?_⟩, hwidth, hval⟩
  · rw [hwidth]
    exact hn
  · rw [hwidth, hval]
    exact h

theorem size_eq {x : Nat} (hlo : 2 ^ n ≤ x) (hhi : x < 2 ^ (n + 1)) : x.size = n + 1 :=
  Nat.le_antisymm (Nat.size_le.mpr hhi) (Nat.lt_size.mpr hlo)

theorem countl_zero_size {x : BitVec 64} (hx : x ≠ 0) :
    Support.countl_zero x = 64 - x.toNat.size := by
  have hpos : x.toNat ≠ 0 := Nat.ne_of_gt (toNat_ne_zero.mp hx)
  have hlo := Nat.log2_self_le hpos
  have hhi := Nat.lt_log2_self (n := x.toNat)
  rw [countl_zero_eq hlo hhi, size_eq hlo hhi]
  omega

theorem size_wordsVal (h : w n ≠ 0) : (wordsVal w (n + 1)).size = 64 * n + (w n).toNat.size := by
  have hpos : 0 < (w n).toNat.size := Nat.size_pos.mpr (toNat_ne_zero.mp h)
  obtain ⟨k, hk⟩ := Nat.exists_eq_succ_of_ne_zero (Nat.ne_of_gt hpos)
  have hlow := wordsVal_lt w n
  have hge : 2 ^ k ≤ (w n).toNat := Nat.lt_size.mp (by omega)
  have hlt : (w n).toNat < 2 ^ (k + 1) := Nat.size_le.mp (Nat.le_of_eq hk)
  rw [hk, Nat.succ_eq_add_one, ← Nat.add_assoc]
  rw [wordsVal_pow] at hlow
  apply size_eq
  · rw [wordsVal_succ, wordsVal_pow, Nat.pow_add, Nat.mul_comm]
    exact Nat.le_trans (Nat.mul_le_mul_right _ hge) (Nat.le_add_left _ _)
  · have hmul := Nat.mul_le_mul_right (2 ^ (64 * n)) (Nat.succ_le_of_lt hlt)
    rw [wordsVal_succ, wordsVal_pow, Nat.add_assoc, Nat.pow_add, Nat.mul_comm (2 ^ (64 * n))]
    rw [Nat.succ_mul] at hmul
    omega

theorem size_wordsVal_le (w : Words64) (n : Nat) : (wordsVal w n).size ≤ 64 * n := by
  rw [Nat.size_le, ← wordsVal_pow]
  exact wordsVal_lt w n

theorem countLeadingZeros_spec (w : Words64) (n Count : Nat) :
    countLeadingZeros w n Count % 2 ^ 32 =
      (Count + (64 * n - (wordsVal w n).size)) % 2 ^ 32 := by
  induction n generalizing Count with
  | zero => rfl
  | succ n ih =>
    unfold countLeadingZeros
    by_cases hzero : w n = 0
    · have hval : wordsVal w (n + 1) = wordsVal w n := by
        apply wordsVal_of_zeros (Nat.le_succ n)
        intro i hi hn
        rw [Nat.le_antisymm (Nat.le_of_lt_succ hn) hi, hzero]
      have hle := size_wordsVal_le w n
      rw [if_pos hzero, ih, hval]
      unfold APINT_BITS_PER_WORD
      omega
    · have hle : (w n).toNat.size ≤ 64 := Nat.size_le.mpr (w n).isLt
      rw [if_neg hzero, countl_zero_size hzero, size_wordsVal hzero]
      omega

theorem getActiveBits_eq (hA : A.Valid) (h : ¬A.isSingleWord = true) :
    A.getActiveBits = A.val.size := by
  have hwidth := hA.width_lt
  have hsize : A.val.size ≤ A.BitWidth := Nat.size_le.mpr hA.val_lt
  obtain ⟨hpos, hbits⟩ := numWords_spec A
  have hcount := countLeadingZeros_spec A.pVal A.getNumWords 0
  have hval : A.val = wordsVal A.pVal A.getNumWords := by rw [val, numWords_multi h]
  have hspec := getNumWordsOf_spec A.BitWidth
  rw [← hval] at hcount
  unfold getActiveBits countl_zero
  rw [if_neg h]
  unfold countLeadingZerosSlowCase APINT_BITS_PER_WORD
  have hmod : 64 * A.getNumWords =
      A.BitWidth + if 0 < A.BitWidth % 64 then 64 - A.BitWidth % 64 else 0 := by
    unfold getNumWords
    split
    · omega
    · omega
  have hadj : (if 0 < A.BitWidth % 64 then 64 - A.BitWidth % 64 else 0) < 64 := by
    split
    · omega
    · omega
  dsimp only
  generalize (if 0 < A.BitWidth % 64 then 64 - A.BitWidth % 64 else 0) = adj at hmod hadj ⊢
  omega

theorem tcCompare_neg_iff (l r : Words64) (n : Nat) :
    tcCompare l r n < 0 ↔ wordsVal l n < wordsVal r n := by
  induction n with
  | zero => exact iff_of_false (Int.lt_irrefl 0) (Nat.lt_irrefl _)
  | succ n ih =>
    have hl := wordsVal_lt l n
    have hr := wordsVal_lt r n
    unfold tcCompare
    rw [wordsVal_succ, wordsVal_succ]
    by_cases heq : l n = r n
    · rw [if_neg (not_not.mpr heq), ih, heq]
      omega
    · rw [if_pos heq]
      by_cases hlt : r n < l n
      · have hmul := Nat.mul_le_mul_right ((2 ^ 64) ^ n) (Nat.succ_le_of_lt (BitVec.lt_def.mp hlt))
        rw [Nat.succ_mul] at hmul
        rw [if_pos hlt]
        refine iff_of_false (by decide) ?_
        omega
      · have hgt : (l n).toNat < (r n).toNat := by
          rw [BitVec.lt_def] at hlt
          rw [← BitVec.toNat_inj] at heq
          omega
        have hmul := Nat.mul_le_mul_right ((2 ^ 64) ^ n) (Nat.succ_le_of_lt hgt)
        rw [Nat.succ_mul] at hmul
        rw [if_neg hlt]
        refine iff_of_true (by decide) ?_
        omega

theorem ult_iff {B : APInt} (hwidth : A.BitWidth = B.BitWidth) :
    A.ult B = true ↔ A.val < B.val := by
  have hwords : B.numWords = A.numWords := by
    unfold numWords isSingleWord getNumWords
    rw [hwidth]
  unfold ult compare val
  rw [decide_eq_true_iff, hwords]
  by_cases h : A.isSingleWord = true
  · rw [if_pos h, numWords_single h, wordsVal_one, wordsVal_one, ← BitVec.lt_def]
    by_cases hlt : A.pVal 0 < B.pVal 0
    · rw [if_pos hlt]
      exact iff_of_true (by decide) hlt
    · rw [if_neg hlt]
      refine iff_of_false ?_ hlt
      split
      · decide
      · decide
  · rw [if_neg h, numWords_multi h, tcCompare_neg_iff]

theorem wordsVal_inj {w' : Words64} : wordsVal w n = wordsVal w' n ↔ ∀ i < n, w i = w' i := by
  refine ⟨?_, wordsVal_congr⟩
  intro h
  induction n with
  | zero => exact fun i hi => absurd hi (Nat.not_lt_zero i)
  | succ n ih =>
    rw [wordsVal_succ, wordsVal_succ] at h
    obtain ⟨hlow, htop⟩ := split_unique (wordsVal_lt w n) (wordsVal_lt w' n) h
    intro i hi
    rcases Nat.eq_or_lt_of_le (Nat.le_of_lt_succ hi) with heq | hlt
    · rw [heq]
      exact BitVec.eq_of_toNat_eq htop
    · exact ih hlow i hlt

theorem eq_iff {B : APInt} (hwidth : A.BitWidth = B.BitWidth) : A.eq B = true ↔ A.val = B.val := by
  have hwords : B.numWords = A.numWords := by
    unfold numWords isSingleWord getNumWords
    rw [hwidth]
  unfold eq val
  rw [hwords, wordsVal_inj]
  by_cases h : A.isSingleWord = true
  · rw [if_pos h, numWords_single h, beq_iff_eq]
    refine ⟨?_, fun hall => hall 0 Nat.one_pos⟩
    intro heq i hi
    rw [Nat.lt_one_iff.mp hi, heq]
  · rw [if_neg h, numWords_multi h]
    unfold equalSlowCase
    rw [List.all_eq_true]
    refine ⟨?_, ?_⟩
    · intro hall i hi
      exact beq_iff_eq.mp (hall i (List.mem_range.mpr hi))
    · intro hall i hi
      exact beq_iff_eq.mpr (hall i (List.mem_range.mp hi))

end APInt

end SmlnjLlvm.Support
