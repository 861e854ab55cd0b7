import Mathlib.Tactic.Ring
import Mathlib.Algebra.Order.Ring.Nat

/-!
# Division by multiplication

A quotient by a constant `d` is the top part of a product with a multiplier
that is slightly larger than `p / d`. The multiplier is good for all dividends
up to a bound when its error is small against the largest such dividend that
leaves the remainder `d - 1`.
-/

namespace SmlnjLlvm.MagicDivision

variable {d e m n nc p : Nat}

theorem error_lt (hd : 0 < d) (hnc : nc % d = d - 1) (he : nc * e < p) (hn : n < nc + d) :
    n * e < (d - n % d) * p := by
  have hr : n % d < d := Nat.mod_lt n hd
  have hle : d - 1 ≤ nc := hnc ▸ Nat.mod_le nc d
  by_cases hcase : n ≤ nc
  · calc n * e ≤ nc * e := Nat.mul_le_mul_right e hcase
      _ < p := he
      _ = 1 * p := (Nat.one_mul p).symm
      _ ≤ (d - n % d) * p := Nat.mul_le_mul_right p (by omega)
  · -- above the bound a dividend is `nc + 1 + n % d`
    have hdvd : d ∣ nc + 1 := by
      rw [Nat.dvd_iff_mod_eq_zero, Nat.add_mod, hnc]
      by_cases hone : d = 1
      · subst hone
        exact Nat.mod_one _
      · rw [Nat.mod_eq_of_lt (by omega : 1 < d), Nat.sub_add_cancel hd, Nat.mod_self]
    obtain ⟨k, hk⟩ := hdvd
    have hlt : n - (nc + 1) < d := by omega
    have hmod : n % d = n - (nc + 1) := by
      have hsum : n = n - (nc + 1) + d * k := by omega
      calc n % d = (n - (nc + 1) + d * k) % d := by rw [← hsum]
        _ = (n - (nc + 1)) % d := Nat.add_mul_mod_self_left _ _ _
        _ = n - (nc + 1) := Nat.mod_eq_of_lt hlt
    have hn' : n = nc + (n % d + 1) := by omega
    have hsmall : (n % d + 1) * e < p :=
      Nat.lt_of_le_of_lt (Nat.mul_le_mul_right e (by omega : n % d + 1 ≤ nc)) he
    have hone : 1 * p ≤ (d - n % d - 1) * p := Nat.mul_le_mul_right p (by omega)
    calc n * e = (nc + (n % d + 1)) * e := by rw [← hn']
      _ = nc * e + (n % d + 1) * e := Nat.add_mul _ _ _
      _ < p + p := by omega
      _ ≤ (d - n % d - 1) * p + p := by omega
      _ = (d - n % d - 1 + 1) * p := by rw [Nat.succ_mul]
      _ = (d - n % d) * p := by rw [Nat.sub_add_cancel (by omega)]

theorem mul_lt_succ (hd : 0 < d) (hm : m * d = p + e) (h : n * e < (d - n % d) * p) :
    n * m < (n / d + 1) * p := by
  have hdiv := Nat.div_add_mod n d
  have hr : n % d < d := Nat.mod_lt n hd
  refine Nat.lt_of_mul_lt_mul_left (a := d) ?_
  calc d * (n * m) = n * (m * d) := by ring
    _ = n * p + n * e := by rw [hm, Nat.mul_add]
    _ < n * p + (d - n % d) * p := by omega
    _ = (n + (d - n % d)) * p := (Nat.add_mul _ _ _).symm
    _ = (d * (n / d) + d) * p := by
      congr 1
      omega
    _ = d * ((n / d + 1) * p) := by ring

theorem le_mul (hd : 0 < d) (hm : m * d = p + e) : n / d * p ≤ n * m := by
  refine Nat.le_of_mul_le_mul_left ?_ hd
  calc d * (n / d * p) = d * (n / d) * p := by ring
    _ ≤ n * p := Nat.mul_le_mul_right p (Nat.mul_div_le n d)
    _ ≤ n * (p + e) := Nat.mul_le_mul_left n (Nat.le_add_right p e)
    _ = d * (n * m) := by rw [← hm]; ring

theorem mul_div_eq (hd : 0 < d) (hm : m * d = p + e) (h : n * e < (d - n % d) * p) :
    n * m / p = n / d :=
  Nat.div_eq_of_lt_le (le_mul hd hm) (mul_lt_succ hd hm h)

theorem lt_mul (hm : m * d = p + e) (he : 0 < e) (hn : 0 < n) :
    n / d * p < n * m := by
  refine Nat.lt_of_mul_lt_mul_left (a := d) ?_
  calc d * (n / d * p) = d * (n / d) * p := by ring
    _ ≤ n * p := Nat.mul_le_mul_right p (Nat.mul_div_le n d)
    _ < n * p + n * e := Nat.lt_add_of_pos_right (Nat.mul_pos hn he)
    _ = d * (n * m) := by rw [← Nat.mul_add, ← hm]; ring

theorem ediv_eq_of_le_lt {x k : Nat} (hle : k * p ≤ x) (hlt : x < (k + 1) * p) :
    (x : Int) / (p : Int) = k := by
  rw [← Int.natCast_ediv, Nat.div_eq_of_lt_le hle hlt]

theorem neg_ediv_eq_of_lt_le {x k : Nat} (hp : 0 < p) (hlt : k * p < x) (hle : x ≤ (k + 1) * p) :
    -(x : Int) / (p : Int) = -(k + 1) := by
  have hsucc : (k + 1) * p = k * p + p := Nat.succ_mul k p
  have hsplit : (p : Int) * -((k : Int) + 1) = -((k * p : Nat) : Int) - p := by
    push_cast
    ring
  exact ((Int.ediv_emod_unique (r := ((k + 1) * p - x : Nat)) (by omega)).mpr
    ⟨by rw [hsplit]; omega, by omega, by omega⟩).1

/--
The floor of the product, corrected by its sign, is the quotient that is
truncated toward zero.
-/
theorem floor_add_sign {a : Int} {b : Int} (hp : 0 < p) (he : 0 < e)
    (hm : m * b.natAbs = p + e)
    (hlt : 0 ≤ a * b.sign → a.natAbs * m < (a.natAbs / b.natAbs + 1) * p)
    (hle : a * b.sign < 0 → a.natAbs * m ≤ (a.natAbs / b.natAbs + 1) * p) :
    (if a * (b.sign * m) / p < 0 then a * (b.sign * m) / p + 1 else a * (b.sign * m) / p) =
      a.tdiv b := by
  have hb : 0 < b.natAbs := by
    by_contra hzero
    rw [Nat.eq_zero_of_not_pos hzero, Nat.mul_zero] at hm
    omega
  have hne : b ≠ 0 := Int.natAbs_pos.mp hb
  -- the sign of the divisor goes to the dividend
  obtain ⟨c, hc⟩ : ∃ c, c = a * b.sign := ⟨_, rfl⟩
  have habs : a.natAbs = c.natAbs := by
    rw [hc, Int.natAbs_mul, Int.natAbs_sign_of_ne_zero hne, Nat.mul_one]
  have htdiv : a.tdiv b = c.tdiv (b.natAbs : Int) := by
    rcases Int.lt_or_gt_of_ne hne with hneg | hpos
    · have hb' : b = -(b.natAbs : Int) := by omega
      rw [hc, Int.sign_eq_neg_one_of_neg hneg, Int.mul_neg_one, Int.neg_tdiv]
      conv => lhs; rw [hb', Int.tdiv_neg]
    · have hb' : b = (b.natAbs : Int) := by omega
      rw [hc, Int.sign_eq_one_of_pos hpos, Int.mul_one]
      conv => lhs; rw [hb']
  rw [← hc, habs] at hlt hle
  rw [← Int.mul_assoc, ← hc, htdiv]
  have hnonneg : 0 ≤ ((c.natAbs / b.natAbs : Nat) : Int) := Int.natCast_nonneg _
  rcases Int.lt_or_le c 0 with hneg | hpos
  · have hc' : c = -(c.natAbs : Int) := by omega
    have hfloor : c * (m : Int) / (p : Int) = -((c.natAbs / b.natAbs : Nat) + 1) := by
      rw [hc', Int.neg_mul, Int.natAbs_neg, Int.natAbs_natCast, ← Int.natCast_mul]
      exact neg_ediv_eq_of_lt_le hp (lt_mul hm he (by omega)) (hle hneg)
    rw [hfloor, if_pos (Int.neg_neg_of_pos (Int.lt_add_one_of_le hnonneg))]
    conv => rhs; rw [hc', Int.neg_tdiv, Int.natCast_tdiv_eq_ediv, ← Int.natCast_ediv]
    ring
  · have hc' : c = (c.natAbs : Int) := by omega
    have hfloor : c * (m : Int) / (p : Int) = (c.natAbs / b.natAbs : Nat) := by
      rw [hc', Int.natAbs_natCast, ← Int.natCast_mul]
      exact ediv_eq_of_le_lt (le_mul hb hm) (hlt hpos)
    rw [hfloor, if_neg (Int.not_lt.mpr hnonneg)]
    conv => rhs; rw [hc', Int.natCast_tdiv_eq_ediv, ← Int.natCast_ediv]

/-- The largest number below `t` that leaves the remainder `d - 1`. -/
def critical (d t : Nat) : Nat := t - 1 - t % d

theorem critical_add_one {t : Nat} (hd : 0 < d) (ht : d ≤ t) :
    critical d t + 1 = d * (t / d) := by
  have hdiv := Nat.div_add_mod t d
  have hr := Nat.mod_lt t hd
  unfold critical
  omega

theorem critical_mod {t : Nat} (hd : 0 < d) (ht : d ≤ t) : critical d t % d = d - 1 := by
  have hone := critical_add_one hd ht
  obtain ⟨k, hk⟩ : ∃ k, t / d = k + 1 :=
    ⟨t / d - 1, (Nat.sub_add_cancel (Nat.div_pos ht hd)).symm⟩
  rw [hk, Nat.mul_succ] at hone
  have heq : critical d t = d - 1 + d * k := by omega
  rw [heq, Nat.add_mul_mod_self_left, Nat.mod_eq_of_lt (by omega)]

theorem critical_lt {t : Nat} (hd : 0 < d) (ht : d ≤ t) : critical d t < t := by
  unfold critical
  omega

theorem le_critical_add {t : Nat} (hd : 0 < d) (ht : d ≤ t) : t ≤ critical d t + d := by
  have hr := Nat.mod_lt t hd
  unfold critical
  omega

theorem pred_le_critical {t : Nat} (hd : 0 < d) (ht : d ≤ t) : d - 1 ≤ critical d t :=
  critical_mod hd ht ▸ Nat.mod_le _ _

theorem test_iff {δ : Nat} (hnc : 0 < nc) :
    p / nc < δ ∨ p / nc = δ ∧ p % nc = 0 ↔ p ≤ nc * δ := by
  have hdiv := Nat.div_add_mod p nc
  have hr := Nat.mod_lt p hnc
  constructor
  · intro h
    rcases h with h | h
    · have hle : nc * (p / nc + 1) ≤ nc * δ := Nat.mul_le_mul_left nc h
      rw [Nat.mul_succ] at hle
      omega
    · rw [h.1] at hdiv
      omega
  · intro h
    by_cases hlt : p / nc < δ
    · exact Or.inl hlt
    · have hle : nc * δ ≤ nc * (p / nc) := Nat.mul_le_mul_left nc (Nat.not_lt.mp hlt)
      have hzero : p % nc = 0 := by omega
      have heq : nc * (p / nc) = nc * δ := by omega
      exact Or.inr ⟨Nat.eq_of_mul_eq_mul_left hnc heq, hzero⟩

theorem lt_of_not_test {q δ : Nat} (hnc : 0 < nc) (hq : q ≤ p / nc)
    (h : ¬ (q < δ ∨ q = δ ∧ p % nc = 0)) : nc * δ < p := by
  by_contra hle
  rcases (test_iff hnc).mpr (Nat.not_lt.mp hle) with hlt | heq
  · exact h (Or.inl (Nat.lt_of_le_of_lt hq hlt))
  · rcases Nat.lt_or_eq_of_le (heq.1 ▸ hq) with hlt | heq'
    · exact h (Or.inl hlt)
    · exact h (Or.inr ⟨heq', heq.2⟩)

theorem div_double (a b : Nat) {c : Nat} (hb : 0 < b) (hc : c ≤ 1) :
    (2 * a + c) / b = 2 * (a / b) + (if b ≤ 2 * (a % b) + c then 1 else 0) ∧
      (2 * a + c) % b = 2 * (a % b) + c - (if b ≤ 2 * (a % b) + c then b else 0) := by
  have hdiv := Nat.div_add_mod a b
  have hr : a % b < b := Nat.mod_lt a hb
  have hmul : b * (2 * (a / b)) = 2 * (b * (a / b)) := by ring
  by_cases h : b ≤ 2 * (a % b) + c
  · rw [if_pos h, if_pos h]
    have hmul' : b * (2 * (a / b) + 1) = 2 * (b * (a / b)) + b := by rw [Nat.mul_succ, hmul]
    exact (Nat.div_mod_unique hb).mpr ⟨by omega, by omega⟩
  · rw [if_neg h, if_neg h, Nat.add_zero, Nat.sub_zero]
    exact (Nat.div_mod_unique hb).mpr ⟨by omega, by omega⟩

end SmlnjLlvm.MagicDivision
