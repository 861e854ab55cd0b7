import Mathlib.Analysis.Real.Sqrt
import Mathlib.Tactic.Linarith
import Mathlib.Tactic.Positivity

/-!
# Integer square roots

The Babylonian step from above goes down to the integer square root and stays
there. The integer nearest to the real root is the integer root or the next one,
by the square of the midpoint between them.
-/

namespace SmlnjLlvm.IntegerSqrt

/-- The integer square root, by the squares around the number. -/
structure IsRoot (v s : Nat) : Prop where
  le : s * s ≤ v
  lt : v < (s + 1) * (s + 1)

theorem isRoot_sqrt (v : Nat) : IsRoot v (Nat.sqrt v) := ⟨Nat.sqrt_le v, Nat.lt_succ_sqrt v⟩

variable {v s x n : Nat}

theorem le_babylon (h : IsRoot v s) (hx : 0 < x) : s ≤ (v / x + x) / 2 := by
  rw [Nat.le_div_iff_mul_le (by decide)]
  rcases Nat.le_total (2 * s) x with hle | hge
  · rw [Nat.mul_comm]
    exact hle.trans (Nat.le_add_left x _)
  · obtain ⟨d, hd⟩ := Nat.exists_eq_add_of_le hge
    have hdx : d ≤ v / x := by
      rw [Nat.le_div_iff_mul_le hx]
      have hsq : d * x ≤ s * s := by nlinarith [sq_nonneg ((s : Int) - x)]
      exact hsq.trans h.le
    omega

theorem babylon_lt (h : IsRoot v s) (hlt : s < x) : (v / x + x) / 2 < x := by
  have hdiv : v / x < x := by
    rw [Nat.div_lt_iff_lt_mul (by omega)]
    exact h.lt.trans_le (Nat.mul_le_mul hlt hlt)
  omega

theorem div_le (h : IsRoot v s) (hs : 0 < s) (hle : s ≤ x) : v / x ≤ x + 2 := by
  have hroot : v / s ≤ s + 2 := by
    have hlt := h.lt
    rw [← Nat.lt_succ_iff, Nat.div_lt_iff_lt_mul hs]
    nlinarith
  exact (Nat.div_le_div_left hle hs).trans (by omega)

/-- No integer is nearer to the real square root. -/
def IsNearest (v n : Nat) : Prop :=
  ∀ m : Int, |(n : ℝ) - Real.sqrt v| ≤ |(m : ℝ) - Real.sqrt v|

theorem root_le_sqrt (h : IsRoot v s) : (s : ℝ) ≤ Real.sqrt v := by
  apply Real.le_sqrt_of_sq_le
  rw [sq]
  exact_mod_cast h.le

theorem sqrt_lt_succ (h : IsRoot v s) : Real.sqrt v < s + 1 := by
  rw [Real.sqrt_lt' (by positivity), sq]
  exact_mod_cast h.lt

theorem sqrt_lt_midpoint_iff : Real.sqrt v < s + 1 / 2 ↔ v ≤ s * s + s := by
  rw [Real.sqrt_lt' (by positivity)]
  constructor
  · intro hlt
    have hreal : ((4 * v : Nat) : ℝ) < ((4 * (s * s + s) + 1 : Nat) : ℝ) := by
      push_cast
      linarith
    have hnat : 4 * v < 4 * (s * s + s) + 1 := by exact_mod_cast hreal
    omega
  · intro hle
    have hreal : (v : ℝ) ≤ s * s + s := by exact_mod_cast hle
    linarith

theorem sqrt_ne_midpoint : Real.sqrt v ≠ s + 1 / 2 := by
  intro heq
  have hsq : ((4 * v : Nat) : ℝ) = ((4 * (s * s + s) + 1 : Nat) : ℝ) := by
    have hmul := Real.mul_self_sqrt (Nat.cast_nonneg (α := ℝ) v)
    rw [heq] at hmul
    push_cast
    linarith
  have hnat : 4 * v = 4 * (s * s + s) + 1 := by exact_mod_cast hsq
  omega

theorem isNearest_iff_of_near {r : ℝ} {k : Int} (hr : |(k : ℝ) - r| < 1 / 2) (n : Int) :
    (∀ m : Int, |(n : ℝ) - r| ≤ |(m : ℝ) - r|) ↔ n = k := by
  rw [abs_lt] at hr
  constructor
  · intro hmin
    have hle : |(n : ℝ) - r| < 1 / 2 := (hmin k).trans_lt (abs_lt.mpr hr)
    rw [abs_lt] at hle
    have hdiff : |((n - k : Int) : ℝ)| < 1 := by
      rw [abs_lt]
      push_cast
      constructor
      · linarith
      · linarith
    have hint : |n - k| < 1 := by exact_mod_cast hdiff
    rw [Int.abs_lt_one_iff] at hint
    omega
  · rintro rfl m
    rcases lt_trichotomy m n with hlt | rfl | hgt
    · have hm : (m : ℝ) + 1 ≤ n := by exact_mod_cast hlt
      rw [abs_of_neg (a := (m : ℝ) - r) (by linarith), abs_le]
      constructor
      · linarith
      · linarith
    · exact le_refl _
    · have hm : (n : ℝ) + 1 ≤ m := by exact_mod_cast hgt
      rw [abs_of_pos (a := (m : ℝ) - r) (by linarith), abs_le]
      constructor
      · linarith
      · linarith

theorem isNearest_iff (h : IsRoot v s) :
    IsNearest v n ↔ n = if v ≤ s * s + s then s else s + 1 := by
  have hlo := root_le_sqrt h
  have hhi := sqrt_lt_succ h
  have hmid := sqrt_lt_midpoint_iff (v := v) (s := s)
  by_cases hle : v ≤ s * s + s
  · have hlt := hmid.mpr hle
    have hnear : |(((s : Int) : Int) : ℝ) - Real.sqrt v| < 1 / 2 := by
      rw [abs_lt, Int.cast_natCast]
      constructor
      · linarith
      · linarith
    have hiff := isNearest_iff_of_near hnear n
    rw [if_pos hle, ← Int.natCast_inj, ← hiff]
    rfl
  · have hge : (s : ℝ) + 1 / 2 < Real.sqrt v :=
      lt_of_le_of_ne (not_lt.mp fun hlt => hle (hmid.mp hlt)) fun heq => sqrt_ne_midpoint heq.symm
    have hnear : |(((s + 1 : Nat) : Int) : ℝ) - Real.sqrt v| < 1 / 2 := by
      rw [abs_lt]
      push_cast
      constructor
      · linarith
      · linarith
    have hiff := isNearest_iff_of_near hnear n
    rw [if_neg hle, ← Int.natCast_inj, ← hiff]
    rfl

end SmlnjLlvm.IntegerSqrt
