import SmlnjLlvm.Support.MathExtras

/-!
# Ranges of integers

The tests for words that are integers of fewer bits, the extension of the low
bits by their sign, and the masks of the ends of a word.
-/

namespace SmlnjLlvm.Support

open Words

def isInt (N : Nat) (x : BitVec 64) : Bool := decide (-2 ^ (N - 1) ≤ x.toInt ∧ x.toInt < 2 ^ (N - 1))

def isUInt (N : Nat) (x : BitVec 64) : Bool := decide (x.toNat < 2 ^ N)

def SignExtend64 (B : Nat) (x : BitVec 64) : BitVec 64 := (x <<< (64 - B)).sshiftRight (64 - B)

def Hi_32 (Value : BitVec 64) : BitVec 32 := (Value >>> 32).setWidth 32

def Lo_32 (Value : BitVec 64) : BitVec 32 := Value.setWidth 32

def has_single_bit (Value : BitVec 64) : Bool :=
  decide (Value ≠ 0) && decide (Value &&& (Value - 1) = 0)

def isPowerOf2_64 (Value : BitVec 64) : Bool := has_single_bit Value

def Log2_64 (Value : BitVec 64) : Nat := 63 - countl_zero Value

def maskTrailingOnes (N : Nat) : Option (BitVec 64) := do
  guard (N ≤ 64)
  some (if N = 0 then 0 else BitVec.allOnes 64 >>> (64 - N))

def maskLeadingOnes (N : Nat) : Option (BitVec 64) := do
  guard (N ≤ 64)
  let Ones ← maskTrailingOnes (64 - N)
  some (~~~Ones)

def maskTrailingZeros (N : Nat) : Option (BitVec 64) := do
  guard (N ≤ 64)
  maskLeadingOnes (64 - N)

theorem toInt_cases (x : BitVec 64) :
    x.toNat < 2 ^ 63 ∧ x.toInt = x.toNat ∨ 2 ^ 63 ≤ x.toNat ∧ x.toInt = x.toNat - 2 ^ 64 := by
  rw [BitVec.toInt_eq_toNat_cond]
  split
  · omega
  · omega

theorem isInt_12_iff (x : BitVec 64) :
    isInt 12 x = true ↔ x.toNat < 2 ^ 11 ∨ 2 ^ 64 - 2 ^ 11 ≤ x.toNat := by
  have hx := toInt_cases x
  unfold isInt
  rw [decide_eq_true_iff]
  omega

theorem isInt_32_iff (x : BitVec 64) :
    isInt 32 x = true ↔ x.toNat < 2 ^ 31 ∨ 2 ^ 64 - 2 ^ 31 ≤ x.toNat := by
  have hx := toInt_cases x
  unfold isInt
  rw [decide_eq_true_iff]
  omega

theorem isInt_32_of_12 {x : BitVec 64} (h : isInt 12 x = true) : isInt 32 x = true := by
  rw [isInt_12_iff] at h
  rw [isInt_32_iff]
  omega

theorem SignExtend64_eq {B : Nat} (hB : 0 < B) (hle : B ≤ 64) (x : BitVec 64) :
    SignExtend64 B x = (x.setWidth B).signExtend 64 := by
  apply BitVec.eq_of_getLsbD_eq
  intro i hi
  unfold SignExtend64
  rw [BitVec.getLsbD_sshiftRight, BitVec.getLsbD_signExtend, BitVec.msb_eq_getLsbD_last,
    BitVec.msb_eq_getLsbD_last, BitVec.getLsbD_shiftLeft, BitVec.getLsbD_shiftLeft,
    BitVec.getLsbD_setWidth, BitVec.getLsbD_setWidth, decide_eq_true hi,
    decide_eq_false (by omega : ¬64 ≤ i), Bool.not_false, Bool.true_and, Bool.true_and]
  by_cases hlow : i < B
  · have hsub : 64 - B + i - (64 - B) = i := by omega
    rw [if_pos (by omega : 64 - B + i < 64), if_pos hlow, hsub,
      decide_eq_true (by omega : 64 - B + i < 64),
      decide_eq_false (by omega : ¬64 - B + i < 64 - B), decide_eq_true hlow]
    rfl
  · have hsub : 64 - 1 - (64 - B) = B - 1 := by omega
    rw [if_neg (by omega : ¬64 - B + i < 64), if_neg hlow, hsub,
      decide_eq_false (by omega : ¬64 - 1 < 64 - B), decide_eq_true (by omega : B - 1 < B)]
    rfl

theorem signExtend_toNat {B : Nat} (hle : B ≤ 64) (x : BitVec B) :
    (x.signExtend 64).toNat = if x.toNat < 2 ^ (B - 1) then x.toNat
      else x.toNat + (2 ^ 64 - 2 ^ B) := by
  have hbound : 2 ^ B ≤ 2 ^ 64 := Nat.pow_le_pow_right (by decide) hle
  rw [BitVec.toNat_signExtend, BitVec.msb_eq_decide, BitVec.toNat_setWidth,
    Nat.mod_eq_of_lt (by omega)]
  by_cases hneg : 2 ^ (B - 1) ≤ x.toNat
  · rw [decide_eq_true hneg, if_pos rfl, if_neg (by omega)]
  · rw [decide_eq_false hneg, if_neg Bool.false_ne_true, if_pos (by omega), Nat.add_zero]

theorem SignExtend64_toNat {B : Nat} (hB : 0 < B) (hle : B ≤ 64) (x : BitVec 64) :
    (SignExtend64 B x).toNat = if x.toNat % 2 ^ B < 2 ^ (B - 1) then x.toNat % 2 ^ B
      else x.toNat % 2 ^ B + (2 ^ 64 - 2 ^ B) := by
  rw [SignExtend64_eq hB hle, signExtend_toNat hle, BitVec.toNat_setWidth]

theorem SignExtend64_12_spec (x : BitVec 64) :
    isInt 12 (SignExtend64 12 x) = true ∧ (SignExtend64 12 x).toNat % 2 ^ 12 = x.toNat % 2 ^ 12 := by
  have hval := SignExtend64_toNat (by decide : 0 < 12) (by decide) x
  rw [isInt_12_iff]
  split at hval
  · omega
  · omega

theorem SignExtend64_32_spec (x : BitVec 64) :
    isInt 32 (SignExtend64 32 x) = true ∧ (SignExtend64 32 x).toNat % 2 ^ 32 = x.toNat % 2 ^ 32 := by
  have hval := SignExtend64_toNat (by decide : 0 < 32) (by decide) x
  rw [isInt_32_iff]
  split at hval
  · omega
  · omega

theorem eq_of_isInt_32 {x y : BitVec 64} (hx : isInt 32 x = true) (hy : isInt 32 y = true)
    (h : x.toNat % 2 ^ 32 = y.toNat % 2 ^ 32) : x = y := by
  rw [isInt_32_iff] at hx hy
  apply BitVec.eq_of_toNat_eq
  omega

theorem sshiftRight_shiftLeft {x : BitVec 64} {s : Nat} (h : ∀ i < s, x.getLsbD i = false) :
    x.sshiftRight s <<< s = x := by
  apply BitVec.eq_of_getLsbD_eq
  intro i hi
  rw [BitVec.getLsbD_shiftLeft, decide_eq_true hi, Bool.true_and]
  by_cases hlow : i < s
  · rw [decide_eq_true hlow, h i hlow]
    rfl
  · have hsum : s + (i - s) = i := by omega
    rw [decide_eq_false hlow, BitVec.getLsbD_sshiftRight, hsum, if_pos hi,
      decide_eq_false (by omega : ¬64 ≤ i - s)]
    rfl

theorem shiftLeft_ushiftRight {x y : BitVec 64} {s : Nat} (hx : ∀ i, 64 - s ≤ i → x.getLsbD i = false)
    (hy : ∀ i, s ≤ i → y.getLsbD i = false) : (x <<< s ||| y) >>> s = x := by
  apply BitVec.eq_of_getLsbD_eq
  intro i hi
  rw [BitVec.getLsbD_ushiftRight, BitVec.getLsbD_or, BitVec.getLsbD_shiftLeft,
    hy _ (Nat.le_add_right s i), Bool.or_false, decide_eq_false (by omega : ¬s + i < s),
    Nat.add_sub_cancel_left, Bool.not_false, Bool.and_true]
  by_cases hlow : s + i < 64
  · rw [decide_eq_true hlow, Bool.true_and]
  · rw [decide_eq_false hlow, Bool.false_and, hx i (by omega)]

theorem low_bits_of_mod {x : BitVec 64} {n : Nat} (h : x.toNat % 2 ^ n = 0) :
    ∀ i < n, x.getLsbD i = false := by
  intro i hi
  have hbit : (x.toNat % 2 ^ n).testBit i = x.toNat.testBit i := by
    rw [Nat.testBit_mod_two_pow, decide_eq_true hi, Bool.true_and]
  rw [← BitVec.testBit_toNat, ← hbit, h, Nat.zero_testBit]

theorem mod_of_low_bits {x : BitVec 64} {n : Nat} (h : ∀ i < n, x.getLsbD i = false) :
    x.toNat % 2 ^ n = 0 := by
  apply Nat.eq_of_testBit_eq
  intro i
  rw [Nat.testBit_mod_two_pow, Nat.zero_testBit]
  by_cases hi : i < n
  · rw [BitVec.testBit_toNat, h i hi, Bool.and_false]
  · rw [decide_eq_false hi, Bool.false_and]

theorem le_countr_zero {x : BitVec 64} {n : Nat} (hx : x ≠ 0) (h : x.toNat % 2 ^ n = 0) :
    n ≤ countr_zero x := by
  by_contra hlt
  have hbit := (countr_zero_spec hx).1
  rw [low_bits_of_mod h _ (Nat.not_le.mp hlt)] at hbit
  cases hbit

theorem isPowerOf2_64_spec {x : BitVec 64} (h : isPowerOf2_64 x = true) :
    Log2_64 x < 64 ∧ x = (1 : BitVec 64) <<< Log2_64 x := by
  unfold isPowerOf2_64 has_single_bit at h
  rw [Bool.and_eq_true, decide_eq_true_iff, decide_eq_true_iff] at h
  obtain ⟨hne, hand⟩ := h
  obtain ⟨hbit, hhigh⟩ := countl_zero_spec (by decide) hne
  have hpos := toNat_ne_zero.mp hne
  change x.getLsbD (Log2_64 x) = true at hbit
  have hlt : Log2_64 x < 64 := by
    unfold Log2_64
    omega
  have hlo : 2 ^ Log2_64 x ≤ x.toNat := by
    exact Nat.ge_two_pow_of_testBit hbit
  have hhi : x.toNat < 2 ^ (Log2_64 x + 1) := by
    apply Nat.lt_pow_two_of_testBit
    intro i hi
    rw [BitVec.testBit_toNat]
    exact hhigh i (Nat.lt_of_succ_le hi)
  refine ⟨hlt, ?_⟩
  -- a word above the power would share its top bit with the word before it
  have heq : x.toNat = 2 ^ Log2_64 x := by
    by_contra hother
    have hpred : (x - 1).toNat = x.toNat - 1 := toNat_sub_of_le (Nat.succ_le_of_lt hpos)
    have htop : (x - 1).getLsbD (Log2_64 x) = true := by
      rw [← BitVec.testBit_toNat, hpred]
      exact Nat.testBit_of_two_pow_le_and_two_pow_add_one_gt (by omega) (by omega)
    have hbits := congrArg (fun v : BitVec 64 => v.getLsbD (Log2_64 x)) hand
    simp only [BitVec.getLsbD_and, hbit, htop, Bool.and_self] at hbits
    exact absurd (hbits.trans BitVec.getLsbD_zero) (by decide)
  apply BitVec.eq_of_toNat_eq
  have hpow : 2 ^ Log2_64 x < 2 ^ 64 := Nat.pow_lt_pow_right (by decide) hlt
  rw [heq, toNat_shl, toNat_one (by decide), Nat.one_mul,
    Nat.mod_eq_of_lt hpow]

end SmlnjLlvm.Support
