import Mathlib.Data.BitVec
import Mathlib.Data.Nat.ModEq
import Mathlib.Tactic.Ring

/-!
# Sums in two words

A low and a high word as one number of twice the width, to which words are added
with a test for the carry; and sums modulo a bound, with an early report of
whether the bound has been reached.
-/

namespace SmlnjLlvm.WideSums

variable {w : Nat}

/-- The number of a low and a high word. -/
def wide (s : BitVec w × BitVec w) : Nat := s.2.toNat * 2 ^ w + s.1.toNat

/-- A word is added to the low one; a sum that wraps around is below its first operand. -/
def addLow (s : BitVec w × BitVec w) (x : BitVec w) : BitVec w × BitVec w :=
  (s.1 + x, if s.1 + x < s.1 then s.2 + 1 else s.2)

theorem wide_lt (s : BitVec w × BitVec w) : wide s < 2 ^ w * 2 ^ w := by
  have hhigh := Nat.mul_le_mul_right (2 ^ w) (Nat.succ_le_of_lt s.2.isLt)
  rw [Nat.succ_mul] at hhigh
  unfold wide
  omega

theorem carry_iff (x y : BitVec w) : x + y < x ↔ 2 ^ w ≤ x.toNat + y.toNat := by
  rw [BitVec.lt_def, BitVec.toNat_add]
  by_cases hsum : x.toNat + y.toNat < 2 ^ w
  · rw [Nat.mod_eq_of_lt hsum]
    omega
  · rw [Nat.mod_eq_sub_mod (by omega), Nat.mod_eq_of_lt (by omega)]
    omega

theorem wide_succ (hw : 0 < w) (low high : BitVec w) :
    wide (low, high + 1) ≡ wide (low, high) + 2 ^ w [MOD 2 ^ w * 2 ^ w] := by
  have hone : (1 : BitVec w).toNat = 1 := BitVec.toNat_one hw
  unfold wide
  rw [BitVec.toNat_add, hone, Nat.add_right_comm, ← Nat.succ_mul]
  apply Nat.ModEq.add_right
  exact (Nat.mod_modEq (high.toNat + 1) (2 ^ w)).mul_right' (2 ^ w)

theorem wide_addLow (hw : 0 < w) (s : BitVec w × BitVec w) (x : BitVec w) :
    wide (addLow s x) ≡ wide s + x.toNat [MOD 2 ^ w * 2 ^ w] := by
  have hcarry := carry_iff s.1 x
  have hlow : (s.1 + x).toNat = (s.1.toNat + x.toNat) % 2 ^ w := BitVec.toNat_add _ _
  unfold addLow
  by_cases hwrap : s.1 + x < s.1
  · rw [if_pos hwrap]
    have hle := hcarry.mp hwrap
    rw [Nat.mod_eq_sub_mod hle, Nat.mod_eq_of_lt (by omega)] at hlow
    refine (wide_succ hw _ _).trans ?_
    have hsum : wide (s.1 + x, s.2) + 2 ^ w = wide s + x.toNat := by
      unfold wide
      dsimp only
      omega
    rw [hsum]
  · rw [if_neg hwrap]
    rw [Nat.mod_eq_of_lt (Nat.lt_of_not_le (fun hle => hwrap (hcarry.mpr hle)))] at hlow
    have hsum : wide (s.1 + x, s.2) = wide s + x.toNat := by
      unfold wide
      dsimp only
      omega
    rw [hsum]

theorem wide_eq {s : BitVec w × BitVec w} {n : Nat} (h : wide s ≡ n [MOD 2 ^ w * 2 ^ w])
    (hn : n < 2 ^ w * 2 ^ w) : wide s = n :=
  h.eq_of_lt_of_lt (wide_lt s) hn

theorem cut_add {M P D X : Nat} {o : Prop} (hD : D = P % M) (ho : o ↔ M ≤ P) :
    (D + X) % M = (P + X) % M ∧ (o ∨ M ≤ D + X ↔ M ≤ P + X) := by
  refine ⟨by rw [hD, Nat.mod_add_mod], ?_⟩
  constructor
  · rintro (hover | hsum)
    · have hle := ho.mp hover
      omega
    · have hle := Nat.mod_le P M
      omega
  · intro hsum
    by_cases hover : M ≤ P
    · exact .inl (ho.mpr hover)
    · rw [Nat.mod_eq_of_lt (Nat.lt_of_not_le hover)] at hD
      exact .inr (hD ▸ hsum)

theorem cut_above {b n m lo t : Nat} (hb : 0 < b) (hlo : lo < b ^ n) :
    lo + b ^ n * (t % b ^ m) = (lo + b ^ n * t) % b ^ (n + m) ∧
      (t / b ^ m ≠ 0 ↔ b ^ (n + m) ≤ lo + b ^ n * t) := by
  have hm : 0 < b ^ m := Nat.pow_pos hb
  have hrest := Nat.mul_le_mul_left (b ^ n) (Nat.succ_le_of_lt (Nat.mod_lt t hm))
  rw [Nat.mul_succ] at hrest
  rw [Nat.pow_add]
  constructor
  · have hsplit : lo + b ^ n * t = lo + b ^ n * (t % b ^ m) + b ^ n * b ^ m * (t / b ^ m) := by
      conv_lhs => rw [← Nat.mod_add_div t (b ^ m)]
      ring
    have hlt : lo + b ^ n * (t % b ^ m) < b ^ n * b ^ m := by omega
    rw [congrArg (· % (b ^ n * b ^ m)) hsplit]
    exact ((Nat.add_mul_mod_self_left _ _ _).trans (Nat.mod_eq_of_lt hlt)).symm
  · rw [Nat.ne_zero_iff_zero_lt, Nat.div_pos_iff]
    constructor
    · intro h
      exact (Nat.mul_le_mul_left (b ^ n) h.2).trans (Nat.le_add_left _ _)
    · intro h
      refine ⟨hm, ?_⟩
      by_contra hlt
      have hle := Nat.mul_le_mul_left (b ^ n) (Nat.succ_le_of_lt (Nat.lt_of_not_le hlt))
      rw [Nat.mul_succ] at hle
      omega

end SmlnjLlvm.WideSums
