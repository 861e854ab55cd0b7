import Mathlib.Algebra.Order.BigOperators.Group.List
import Mathlib.Algebra.Order.Group.Unbundled.Abs
import Mathlib.Tactic.Linarith
import Mathlib.Tactic.Ring

/-!
# Rounded shares

The share of a number in a total, as a multiple of a unit, rounded to the
nearest. A share is at most the whole, larger numbers have larger shares, and the
shares of all parts miss the whole by half a unit each at most.
-/

namespace SmlnjLlvm.RoundedShares

variable {units total x y : ℕ}

/-- The share of `x` in `total`. Half a unit is rounded up. -/
def share (units total x : ℕ) : ℕ := (x * units + total / 2) / total

theorem share_le (htotal : 0 < total) (hx : x ≤ total) : share units total x ≤ units := by
  have hle : x * units ≤ units * total := Nat.mul_comm x units ▸ Nat.mul_le_mul_left units hx
  have hhalf : total / 2 < total := Nat.div_lt_self htotal (by decide)
  rw [share, ← Nat.lt_succ_iff, Nat.div_lt_iff_lt_mul htotal, Nat.succ_mul]
  omega

theorem share_mono (units total : ℕ) (h : x ≤ y) : share units total x ≤ share units total y :=
  Nat.div_le_div_right (Nat.add_le_add_right (Nat.mul_le_mul_right units h) _)

theorem share_error (units x : ℕ) (htotal : 0 < total) :
    |2 * (total * share units total x : ℤ) - 2 * (x * units)| ≤ total := by
  have hdiv := Nat.div_add_mod (x * units + total / 2) total
  have hmod := Nat.mod_lt (x * units + total / 2) htotal
  have hlow : 2 * (total * share units total x) ≤ 2 * (x * units) + total := by
    unfold share
    omega
  have hhigh : 2 * (x * units) ≤ 2 * (total * share units total x) + total := by
    unfold share
    omega
  zify at hlow hhigh
  rw [abs_le]
  constructor <;> linarith

theorem sum_share_error (units : ℕ) (htotal : 0 < total) (xs : List ℕ) :
    |2 * (total * (xs.map (share units total)).sum : ℤ) - 2 * (xs.sum * units)| ≤
      total * xs.length := by
  induction xs with
  | nil => simp
  | cons x xs ih =>
    have herror := share_error units x htotal
    have hsplit : 2 * (total * ((x :: xs).map (share units total)).sum : ℤ) -
        2 * ((x :: xs).sum * units) =
          (2 * (total * share units total x) - 2 * (x * units)) +
            (2 * (total * (xs.map (share units total)).sum) - 2 * (xs.sum * units)) := by
      simp only [List.map_cons, List.sum_cons]
      push_cast
      ring
    rw [hsplit, List.length_cons, Nat.cast_add_one]
    calc |_ + _| ≤ |2 * (total * share units total x : ℤ) - 2 * (x * units)| +
          |2 * (total * (xs.map (share units total)).sum : ℤ) - 2 * (xs.sum * units)| :=
            abs_add_le _ _
      _ ≤ total + total * xs.length := add_le_add herror ih
      _ = total * (xs.length + 1) := by ring

theorem sum_shares (units : ℕ) {xs : List ℕ} (htotal : 0 < xs.sum) :
    |((xs.map (share units xs.sum)).sum : ℤ) - units| ≤ xs.length := by
  have herror := sum_share_error units htotal xs
  have hpos : (0 : ℤ) < xs.sum := Int.natCast_pos.mpr htotal
  rw [abs_le] at herror ⊢
  constructor
  · by_contra hlt
    nlinarith
  · by_contra hlt
    nlinarith

end SmlnjLlvm.RoundedShares
