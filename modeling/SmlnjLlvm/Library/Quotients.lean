import Mathlib.Algebra.Order.Ring.Int
import Mathlib.Tactic.Common
import Mathlib.Algebra.Order.Field.Rat
import Mathlib.Algebra.Order.Floor.Ring
import Mathlib.Data.Rat.Floor
import Mathlib.Tactic.Linarith

/-!
# Products and quotients of integers

Bounds for products and truncated quotients over a box, and quotients rounded to
an integer.

## Products over a box

A product of two numbers in intervals lies between two products of ends of the
intervals, whatever the signs are.
-/

namespace SmlnjLlvm.Corners

variable {a b c d x y : Int}

theorem mul_end_le (ha : a ≤ x) (hb : x ≤ b) (y : Int) : a * y ≤ x * y ∨ b * y ≤ x * y := by
  rcases Int.le_total 0 y with hy | hy
  · exact Or.inl (Int.mul_le_mul_of_nonneg_right ha hy)
  · exact Or.inr (Int.mul_le_mul_of_nonpos_right hb hy)

theorem le_mul_end (ha : a ≤ x) (hb : x ≤ b) (y : Int) : x * y ≤ a * y ∨ x * y ≤ b * y := by
  rcases Int.le_total 0 y with hy | hy
  · exact Or.inr (Int.mul_le_mul_of_nonneg_right hb hy)
  · exact Or.inl (Int.mul_le_mul_of_nonpos_right ha hy)

/-- The products of the ends. -/
def corners (a b c d : Int) : List Int := [a * c, a * d, b * c, b * d]

theorem exists_corner_le (ha : a ≤ x) (hb : x ≤ b) (hc : c ≤ y) (hd : y ≤ d) :
    ∃ p ∈ corners a b c d, p ≤ x * y := by
  have hend : ∀ e : Int, e * c ≤ e * y ∨ e * d ≤ e * y := by
    intro e
    rw [Int.mul_comm e c, Int.mul_comm e d, Int.mul_comm e y]
    exact mul_end_le hc hd e
  unfold corners
  rcases mul_end_le ha hb y with hx | hx
  · rcases hend a with hy | hy
    · exact ⟨a * c, by simp, Int.le_trans hy hx⟩
    · exact ⟨a * d, by simp, Int.le_trans hy hx⟩
  · rcases hend b with hy | hy
    · exact ⟨b * c, by simp, Int.le_trans hy hx⟩
    · exact ⟨b * d, by simp, Int.le_trans hy hx⟩

theorem exists_le_corner (ha : a ≤ x) (hb : x ≤ b) (hc : c ≤ y) (hd : y ≤ d) :
    ∃ p ∈ corners a b c d, x * y ≤ p := by
  have hend : ∀ e : Int, e * y ≤ e * c ∨ e * y ≤ e * d := by
    intro e
    rw [Int.mul_comm e c, Int.mul_comm e d, Int.mul_comm e y]
    exact le_mul_end hc hd e
  unfold corners
  rcases le_mul_end ha hb y with hx | hx
  · rcases hend a with hy | hy
    · exact ⟨a * c, by simp, Int.le_trans hx hy⟩
    · exact ⟨a * d, by simp, Int.le_trans hx hy⟩
  · rcases hend b with hy | hy
    · exact ⟨b * c, by simp, Int.le_trans hx hy⟩
    · exact ⟨b * d, by simp, Int.le_trans hx hy⟩

end SmlnjLlvm.Corners

/-!
## Quotients over a box

Bounds for truncated quotients of numbers of known signs. The quotient grows
with the dividend, away from zero, and shrinks with the divisor.
-/

namespace SmlnjLlvm.Quotients

variable {a b x y p q : Int}

theorem tdiv_le_tdiv (ha : 0 ≤ a) (hab : a ≤ b) (hp : 0 < p) (hpq : p ≤ q) :
    a.tdiv q ≤ b.tdiv p := by
  have hq : 0 < q := Int.lt_of_lt_of_le hp hpq
  have hb : 0 ≤ b := Int.le_trans ha hab
  rw [Int.tdiv_eq_ediv_of_nonneg ha, Int.tdiv_eq_ediv_of_nonneg hb]
  have hquot : 0 ≤ a / q := Int.ediv_nonneg ha (Int.le_of_lt hq)
  rw [Int.le_ediv_iff_mul_le hp]
  calc
    a / q * p ≤ a / q * q := Int.mul_le_mul_of_nonneg_left hpq hquot
    _ ≤ a := Int.ediv_mul_le a (Int.ne_of_gt hq)
    _ ≤ b := hab

theorem tdiv_le_tdiv_of_neg (ha : a ≤ 0) (hba : b ≤ a) (hp : p < 0) (hqp : q ≤ p) :
    a.tdiv q ≤ b.tdiv p := by
  have hle := tdiv_le_tdiv (a := -a) (b := -b) (p := -p) (q := -q) (by omega) (by omega) (by omega)
    (by omega)
  rwa [Int.neg_tdiv_neg, Int.neg_tdiv_neg] at hle

theorem tdiv_le_tdiv_of_neg_right (ha : 0 ≤ a) (hab : a ≤ b) (hp : p < 0) (hqp : q ≤ p) :
    b.tdiv p ≤ a.tdiv q := by
  have hle := tdiv_le_tdiv (a := a) (b := b) (p := -p) (q := -q) ha hab (by omega) (by omega)
  rw [Int.tdiv_neg, Int.tdiv_neg] at hle
  omega

theorem tdiv_le_tdiv_of_neg_left (ha : a ≤ 0) (hba : b ≤ a) (hp : 0 < p) (hpq : p ≤ q) :
    b.tdiv p ≤ a.tdiv q := by
  have hle := tdiv_le_tdiv (a := -a) (b := -b) (p := p) (q := q) (by omega) (by omega) hp hpq
  rw [Int.neg_tdiv, Int.neg_tdiv] at hle
  omega

theorem tdiv_neg_of_exact (hmul : a.tdiv b * b = a) (ha : a ≠ 0) (hsign : a < 0 ↔ 0 < b) :
    a.tdiv b < 0 := by
  by_contra hnonneg
  rw [Int.not_lt] at hnonneg
  rcases Int.lt_trichotomy b 0 with hb | hb | hb
  · have hle : a.tdiv b * b ≤ 0 := Int.mul_nonpos_of_nonneg_of_nonpos hnonneg (Int.le_of_lt hb)
    omega
  · rw [hb, Int.mul_zero] at hmul
    exact ha hmul.symm
  · have hle : 0 ≤ a.tdiv b * b := Int.mul_nonneg hnonneg (Int.le_of_lt hb)
    omega

theorem neg_tdiv_self (hb : b ≠ 0) : (-b).tdiv b = -1 := by
  rw [Int.neg_tdiv, Int.tdiv_self hb]

theorem tdiv_neg_of_neg_left (hb : 0 < b) (hab : b ≤ -a) : a.tdiv b < 0 := by
  have hle := tdiv_le_tdiv_of_neg_left (a := -b) (b := a) (by omega) (by omega) hb (Int.le_refl b)
  rw [neg_tdiv_self (Int.ne_of_gt hb)] at hle
  omega

theorem tdiv_neg_of_neg_right (hb : b < 0) (hab : -b ≤ a) : a.tdiv b < 0 := by
  have hle := tdiv_le_tdiv_of_neg_right (a := -b) (b := a) (by omega) hab hb (Int.le_refl b)
  rw [neg_tdiv_self (Int.ne_of_lt hb)] at hle
  omega

/-! ## Rounded quotients -/

variable {r n : Int}

theorem round_up_le_iff (hb : 0 < b) (hvalue : a = q * b + r) (hbound : -b < r ∧ r < b) :
    (if 0 < r then q + 1 else q) ≤ n ↔ a ≤ n * b := by
  split
  · next hr =>
    constructor
    · intro hn
      have hle := Int.mul_le_mul_of_nonneg_right hn (Int.le_of_lt hb)
      rw [Int.add_mul, Int.one_mul] at hle
      omega
    · intro hle
      have hlt : q * b < n * b := by omega
      exact Int.lt_of_mul_lt_mul_right hlt (Int.le_of_lt hb)
  · next hr =>
    constructor
    · intro hn
      have hle := Int.mul_le_mul_of_nonneg_right hn (Int.le_of_lt hb)
      omega
    · intro hle
      have hlt : (q - 1) * b < n * b := by
        rw [Int.sub_mul, Int.one_mul]
        omega
      have hpred := Int.lt_of_mul_lt_mul_right hlt (Int.le_of_lt hb)
      omega

theorem le_round_down_iff (hb : 0 < b) (hvalue : a = q * b + r) (hbound : -b < r ∧ r < b) :
    n ≤ (if r < 0 then q - 1 else q) ↔ n * b ≤ a := by
  have hup := round_up_le_iff (a := -a) (q := -q) (r := -r) (n := -n) hb
    (by rw [hvalue, Int.neg_mul]; omega) (by omega)
  rw [Int.neg_mul] at hup
  have hiff : n ≤ (if r < 0 then q - 1 else q) ↔ (if 0 < -r then -q + 1 else -q) ≤ -n := by
    split_ifs with h1 h2 h2 <;> omega
  rw [hiff, hup]
  omega

theorem two_mul_tdiv_lt (h : a.tmod b ≠ 0) : 2 * (a.tdiv b).natAbs < a.natAbs := by
  have hquo : (a.tdiv b).natAbs = a.natAbs / b.natAbs := Int.natAbs_tdiv a b
  have hrem : (a.tmod b).natAbs = a.natAbs % b.natAbs := Int.natAbs_tmod a b
  have hvalue := Nat.div_add_mod a.natAbs b.natAbs
  have hne : a.natAbs % b.natAbs ≠ 0 := by omega
  have hdivisor : b.natAbs = 0 ∨ 2 ≤ b.natAbs := by
    by_contra hone
    have heq : b.natAbs = 1 := by omega
    rw [heq, Nat.mod_one] at hne
    exact hne rfl
  rcases hdivisor with hzero | htwo
  · rw [hzero, Nat.div_zero] at hquo
    omega
  · have hle := Nat.mul_le_mul_right (a.natAbs / b.natAbs) htwo
    omega

end SmlnjLlvm.Quotients

/-!
## Quotients rounded to an integer

The quotient of two integers is a rational number. Its floor and its ceiling are
found from a division with a remainder of any sign that is smaller than the divisor.
-/

namespace SmlnjLlvm.Quotients

variable {a b q r : Int}

theorem div_eq_add_div (hb : b ≠ 0) (hvalue : a = q * b + r) :
    (a / b : ℚ) = q + (r / b : ℚ) := by
  have hb' : (b : ℚ) ≠ 0 := Int.cast_ne_zero.mpr hb
  rw [hvalue, Int.cast_add, Int.cast_mul, add_div, mul_div_cancel_right₀ _ hb']

theorem div_neg_iff_signs : (r / b : ℚ) < 0 ↔ (0 < r ∧ b < 0 ∨ r < 0 ∧ 0 < b) := by
  rw [div_neg_iff, Int.cast_pos, Int.cast_pos, Int.cast_lt_zero, Int.cast_lt_zero]

theorem div_pos_iff_signs : 0 < (r / b : ℚ) ↔ (0 < r ∧ 0 < b ∨ r < 0 ∧ b < 0) := by
  rw [div_pos_iff, Int.cast_pos, Int.cast_pos, Int.cast_lt_zero, Int.cast_lt_zero]

theorem abs_div_lt_one (hb : b ≠ 0) (hbound : r.natAbs < b.natAbs) : |(r / b : ℚ)| < 1 := by
  have hpos : (0 : ℚ) < |(b : ℚ)| := abs_pos.mpr (Int.cast_ne_zero.mpr hb)
  have hlt : |r| < |b| := by
    rw [Int.abs_eq_natAbs, Int.abs_eq_natAbs]
    exact Int.ofNat_lt.mpr hbound
  rw [abs_div, div_lt_one hpos]
  exact_mod_cast hlt

section Remainder

variable (hb : b ≠ 0) (hvalue : a = q * b + r) (hbound : r.natAbs < b.natAbs)
include hb hvalue hbound

theorem floor_div_of_remainder :
    ⌊(a / b : ℚ)⌋ = if (r / b : ℚ) < 0 then q - 1 else q := by
  obtain ⟨hlow, hhigh⟩ := abs_lt.mp (abs_div_lt_one hb hbound)
  rw [div_eq_add_div hb hvalue, Int.floor_eq_iff]
  split
  · next hneg =>
    rw [Int.cast_sub, Int.cast_one]
    constructor <;> linarith
  · next hnonneg =>
    constructor <;> linarith

theorem ceil_div_of_remainder :
    ⌈(a / b : ℚ)⌉ = if 0 < (r / b : ℚ) then q + 1 else q := by
  obtain ⟨hlow, hhigh⟩ := abs_lt.mp (abs_div_lt_one hb hbound)
  rw [div_eq_add_div hb hvalue, Int.ceil_eq_iff]
  split
  · next hpos =>
    rw [Int.cast_add, Int.cast_one]
    constructor <;> linarith
  · next hnonpos =>
    constructor <;> linarith

end Remainder

theorem ceil_natCast_div_natCast (m : Nat) {n : Nat} (hn : 0 < n) :
    ⌈(m / n : ℚ)⌉ = if m % n = 0 then ((m / n : Nat) : Int) else (m / n : Nat) + 1 := by
  have hvalue : (m : Int) = (m / n : Nat) * n + (m % n : Nat) := by
    exact_mod_cast (Nat.div_add_mod' m n).symm
  have hbound : ((m % n : Nat) : Int).natAbs < (n : Int).natAbs := Nat.mod_lt m hn
  have hceil := ceil_div_of_remainder (by omega) hvalue hbound
  have hpos : 0 < (((m % n : Nat) : Int) / (n : Int) : ℚ) ↔ m % n ≠ 0 := by
    rw [div_pos_iff_signs]
    omega
  have hquot : (m / n : ℚ) = ((m : Int) : ℚ) / ((n : Int) : ℚ) := by
    rw [Int.cast_natCast, Int.cast_natCast]
  rw [hquot, hceil]
  by_cases hzero : m % n = 0
  · rw [if_pos hzero, if_neg (hpos.not.mpr (not_not.mpr hzero))]
  · rw [if_neg hzero, if_pos (hpos.mpr hzero)]

theorem natAbs_tmod_lt (a : Int) (hb : b ≠ 0) : (a.tmod b).natAbs < b.natAbs := by
  rw [Int.natAbs_tmod]
  exact Nat.mod_lt _ (Int.natAbs_pos.mpr hb)

theorem tmod_sign (a b : Int) : (0 < a.tmod b → 0 < a) ∧ (a.tmod b < 0 → a < 0) := by
  have hnonneg : 0 ≤ a → 0 ≤ a.tmod b := Int.tmod_nonneg b
  have hneg : 0 ≤ -a → 0 ≤ (-a).tmod b := Int.tmod_nonneg b
  rw [Int.neg_tmod] at hneg
  constructor <;> omega

theorem tdiv_eq_round (hb : b ≠ 0) :
    a.tdiv b = if 0 ≤ (a / b : ℚ) then ⌊(a / b : ℚ)⌋ else ⌈(a / b : ℚ)⌉ := by
  have hvalue : a = a.tdiv b * b + a.tmod b := (Int.tdiv_mul_add_tmod a b).symm
  have hbound := natAbs_tmod_lt a hb
  obtain ⟨hpos, hneg⟩ := tmod_sign a b
  split
  · next hnonneg =>
    have hrest : ¬(a.tmod b / b : ℚ) < 0 := by
      intro hlt
      refine absurd hnonneg (not_le.mpr (div_neg_iff_signs.mpr ?_))
      have hsigns := div_neg_iff_signs.mp hlt
      omega
    rw [floor_div_of_remainder hb hvalue hbound, if_neg hrest]
  · next hlt =>
    have hrest : ¬0 < (a.tmod b / b : ℚ) := by
      intro hgt
      refine absurd (div_pos_iff_signs.mpr ?_).le hlt
      have hsigns := div_pos_iff_signs.mp hgt
      omega
    rw [ceil_div_of_remainder hb hvalue hbound, if_neg hrest]

end SmlnjLlvm.Quotients
