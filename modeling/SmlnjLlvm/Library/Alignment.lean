import Mathlib.Data.Nat.Bitwise
import Mathlib.Data.BitVec

/-!
# Rounding to powers of two

Rounding up as arithmetic, and the mask idioms that compute it: `x & (a - 1)`
is a remainder and `x & ~(a - 1)` rounds down when `a` is a power of two.
-/

namespace SmlnjLlvm.Alignment

/-- The least multiple of `a` that is not below `n`. -/
def roundUp (n a : Nat) : Nat := (n + (a - 1)) / a * a

theorem dvd_roundUp (n a : Nat) : a ∣ roundUp n a := Nat.dvd_mul_left a _

theorem le_roundUp (n : Nat) {a : Nat} (ha : 0 < a) : n ≤ roundUp n a := by
  have hdiv := Nat.div_add_mod (n + (a - 1)) a
  have hmod := Nat.mod_lt (n + (a - 1)) ha
  have hcomm := Nat.mul_comm a ((n + (a - 1)) / a)
  rw [roundUp]
  omega

theorem roundUp_le_add (n : Nat) (a : Nat) : roundUp n a ≤ n + (a - 1) :=
  Nat.div_mul_le_self _ _

theorem roundUp_le {n m a : Nat} (hn : n ≤ m) (ha : a ∣ m) : roundUp n a ≤ m := by
  obtain ⟨k, rfl⟩ := ha
  rcases Nat.eq_zero_or_pos a with rfl | ha
  · rw [roundUp, Nat.mul_zero]
    exact Nat.zero_le _
  · rw [roundUp, Nat.mul_comm a k]
    refine Nat.mul_le_mul_right a ?_
    have hlt : n + (a - 1) < a * (k + 1) := by
      rw [Nat.mul_succ]
      omega
    have hk := Nat.div_lt_of_lt_mul hlt
    omega

theorem roundUp_of_dvd {n a : Nat} (ha : 0 < a) (h : a ∣ n) : roundUp n a = n :=
  Nat.le_antisymm (roundUp_le (Nat.le_refl n) h) (le_roundUp n ha)

theorem and_not_mask {x w k : Nat} (hx : x < 2 ^ w) (hk : k ≤ w) :
    x &&& (2 ^ w - 1 - (2 ^ k - 1)) = x / 2 ^ k * 2 ^ k := by
  have hpow : 2 ^ k ≤ 2 ^ w := Nat.pow_le_pow_right (by decide) hk
  have hmask : 2 ^ w - 1 - (2 ^ k - 1) = 2 ^ w - ((2 ^ k - 1) + 1) := by omega
  refine Nat.eq_of_testBit_eq fun i => ?_
  rw [hmask, Nat.testBit_and, Nat.testBit_two_pow_sub_succ (by omega), Nat.testBit_two_pow_sub_one,
    Nat.testBit_mul_two_pow, Nat.testBit_div_two_pow]
  by_cases hi : k ≤ i
  · by_cases hw : i < w
    · simp [hi, hw, Nat.not_lt.mpr hi]
    · have hzero : x.testBit i = false :=
        Nat.testBit_lt_two_pow (Nat.lt_of_lt_of_le hx (Nat.pow_le_pow_right (by decide) (by omega)))
      simp [hi, hzero]
  · simp [hi, Nat.lt_of_not_le hi]

theorem toNat_twoPow_sub_one {w k : Nat} (hk : k < w) :
    (BitVec.ofNat w (2 ^ k) - 1).toNat = 2 ^ k - 1 := by
  have hpow : 2 ^ k < 2 ^ w := Nat.pow_lt_pow_right (by decide) hk
  have hpos := Nat.two_pow_pos k
  have hone : 1 < 2 ^ w := Nat.one_lt_two_pow (by omega)
  have htoNat : (BitVec.ofNat w (2 ^ k)).toNat = 2 ^ k := by
    rw [BitVec.toNat_ofNat, Nat.mod_eq_of_lt hpow]
  have hone' : (1 : BitVec w).toNat = 1 :=
    (BitVec.toNat_ofNat 1 w).trans (Nat.mod_eq_of_lt hone)
  have hle : (1 : BitVec w) ≤ BitVec.ofNat w (2 ^ k) := by
    rw [BitVec.le_def, htoNat, hone']
    exact hpos
  rw [BitVec.toNat_sub_of_le hle, htoNat, hone']

theorem toNat_and_low {w k : Nat} (x : BitVec w) (hk : k < w) :
    (x &&& (BitVec.ofNat w (2 ^ k) - 1)).toNat = x.toNat % 2 ^ k := by
  rw [BitVec.toNat_and, toNat_twoPow_sub_one hk, Nat.and_two_pow_sub_one_eq_mod]

theorem toNat_and_not_low {w k : Nat} (x : BitVec w) (hk : k < w) :
    (x &&& ~~~(BitVec.ofNat w (2 ^ k) - 1)).toNat = x.toNat / 2 ^ k * 2 ^ k := by
  rw [BitVec.toNat_and, BitVec.toNat_not, toNat_twoPow_sub_one hk,
    and_not_mask x.isLt (Nat.le_of_lt hk)]

end SmlnjLlvm.Alignment
