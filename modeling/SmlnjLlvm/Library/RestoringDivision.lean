import SmlnjLlvm.Library.Words

/-!
# Division by shifting the dividend into the remainder

One register holds the bits of the dividend that are still to come above the
quotient bits found so far, the last of which waits as a carry. Every turn
shifts one bit into the remainder and subtracts the divisor when it fits.
-/

namespace SmlnjLlvm.RestoringDivision

variable {w N D s r q c : Nat}

/-- All but `s` bits of `N` have been divided by `D`: the remainder is `r`, and `q` holds the other
bits above the quotient, whose last bit is `c`. -/
structure Partial (w N D s r q c : Nat) : Prop where
  carry : c ≤ 1
  rem : r = N / 2 ^ s % D
  quot : ∃ P, 2 * P + c = N / 2 ^ s / D ∧ q = N % 2 ^ s * 2 ^ (w - s) + P

theorem Partial.rem_lt (h : Partial w N D s r q c) (hD : 0 < D) : r < D := by
  rw [h.rem]
  exact Nat.mod_lt _ hD

theorem Partial.start (hN : N / 2 ^ s < D) :
    Partial w N D s (N / 2 ^ s) (N % 2 ^ s * 2 ^ (w - s)) 0 where
  carry := Nat.zero_le 1
  rem := (Nat.mod_eq_of_lt hN).symm
  quot := ⟨0, by rw [Nat.div_eq_of_lt hN], rfl⟩

theorem Partial.quot_lt {P : Nat} (hN : N < 2 ^ w) (hs : s ≤ w)
    (hP : 2 * P + c = N / 2 ^ s / D) : 2 * P + c < 2 ^ (w - s) := by
  have hlen : N / 2 ^ s < 2 ^ (w - s) := by
    rw [Nat.div_lt_iff_lt_mul (Nat.two_pow_pos _), ← Nat.pow_add, Nat.sub_add_cancel hs]
    exact hN
  calc 2 * P + c = N / 2 ^ s / D := hP
    _ ≤ N / 2 ^ s := Nat.div_le_self _ _
    _ < 2 ^ (w - s) := hlen

theorem div_pow_succ (N s : Nat) : N / 2 ^ s = 2 * (N / 2 ^ (s + 1)) + N / 2 ^ s % 2 := by
  have hdiv : N / 2 ^ (s + 1) = N / 2 ^ s / 2 := by rw [Nat.pow_succ, Nat.div_div_eq_div_mul]
  omega

theorem mod_pow_succ (N s : Nat) : N % 2 ^ (s + 1) = N / 2 ^ s % 2 * 2 ^ s + N % 2 ^ s := by
  rw [Nat.mod_pow_succ]
  ring

theorem mul_add_div_of_lt {m x y : Nat} (h : y < m) : (x * m + y) / m = x := by
  rw [Nat.mul_comm, Nat.mul_add_div (by omega), Nat.div_eq_of_lt h, Nat.add_zero]

theorem Partial.top_bit (h : Partial w N D (s + 1) r q c) (hN : N < 2 ^ w) (hs : s + 1 ≤ w) :
    q / 2 ^ (w - 1) = N / 2 ^ s % 2 := by
  obtain ⟨P, hP, hq⟩ := h.quot
  have hlt := Partial.quot_lt hN hs hP
  have hsplit : 2 ^ (w - 1) = 2 ^ (w - (s + 1)) * 2 ^ s := by
    rw [← Nat.pow_add]
    congr 1
    omega
  rw [hq, hsplit, ← Nat.div_div_eq_div_mul, mul_add_div_of_lt (by omega), mod_pow_succ,
    mul_add_div_of_lt (Nat.mod_lt _ (Nat.two_pow_pos _))]

theorem Partial.turn {b : Nat} (h : Partial w N D (s + 1) r q c) (hN : N < 2 ^ w) (hD : 0 < D)
    (hs : s + 1 ≤ w) (hb : b = q / 2 ^ (w - 1)) :
    Partial w N D s (2 * r + b - if D ≤ 2 * r + b then D else 0) ((2 * q + c) % 2 ^ w)
      (if D ≤ 2 * r + b then 1 else 0) := by
  rw [h.top_bit hN hs] at hb
  have hbit : b ≤ 1 := by omega
  have hdouble := MagicDivision.div_double (N / 2 ^ (s + 1)) D hD hbit
  rw [hb, ← div_pow_succ, ← hb, ← h.rem] at hdouble
  obtain ⟨P, hP, hq⟩ := h.quot
  constructor
  · split
    · exact Nat.le_refl 1
    · exact Nat.zero_le 1
  · exact hdouble.2.symm
  · refine ⟨2 * P + c, ?_, ?_⟩
    · rw [hP, hdouble.1]
    · -- the dividend's bit leaves the register at its top
      have hlt := Partial.quot_lt hN hs hP
      have hhalf : 2 ^ (w - s) = 2 * 2 ^ (w - (s + 1)) := by
        rw [← Nat.pow_succ', Nat.succ_eq_add_one]
        congr 1
        omega
      have hword : 2 ^ w = 2 ^ s * 2 ^ (w - s) := by
        rw [← Nat.pow_add, Nat.add_sub_cancel' (by omega)]
      have hreg : 2 * q + c =
          N % 2 ^ s * 2 ^ (w - s) + (2 * P + c) + 2 ^ w * (N / 2 ^ s % 2) := by
        rw [hq, mod_pow_succ, hword, hhalf]
        ring
      have hfit : N % 2 ^ s * 2 ^ (w - s) + (2 * P + c) < 2 ^ w := by
        have hle : (N % 2 ^ s + 1) * 2 ^ (w - s) ≤ 2 ^ w := by
          rw [hword]
          exact Nat.mul_le_mul_right _ (Nat.mod_lt _ (Nat.two_pow_pos _))
        rw [Nat.add_mul] at hle
        omega
      rw [hreg, Nat.add_mul_mod_self_left, Nat.mod_eq_of_lt hfit]

theorem Partial.finish (h : Partial w N D 0 r q c) : 2 * q + c = N / D := by
  obtain ⟨P, hP, hq⟩ := h.quot
  rw [Nat.pow_zero, Nat.mod_one, Nat.zero_mul, Nat.zero_add] at hq
  rw [hq, hP, Nat.pow_zero, Nat.div_one]

end SmlnjLlvm.RestoringDivision
