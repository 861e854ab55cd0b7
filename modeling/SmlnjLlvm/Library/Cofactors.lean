import Mathlib.Algebra.Order.Ring.Int
import Mathlib.Data.Int.ModEq
import Mathlib.Tactic.LinearCombination
import Mathlib.Tactic.Ring

/-!
# Euclid's algorithm with one coefficient

Beside two consecutive remainders `R` and `S` of a modulus `m` and a number `a`
stand the coefficients `T` and `U` of `a`. Their signs alternate, and with their
magnitudes the remainders always make up the modulus, which bounds the coefficient
that is returned by half of it.
-/

namespace SmlnjLlvm

/-- Consecutive remainders and the coefficients of `a` that belong to them. -/
structure Cofactors (m a R S : Nat) (T U : Int) : Prop where
  decreasing : S < R
  gcd : Nat.gcd R S = Nat.gcd a m
  balance : T.natAbs * S + U.natAbs * R = m
  half : 2 * T.natAbs ≤ m
  signs : T ≤ 0 ∧ 0 ≤ U ∨ 0 ≤ T ∧ U ≤ 0
  left : (m : Int) ∣ a * T - R
  right : (m : Int) ∣ a * U - S

namespace Cofactors

variable {m a R S : Nat} {T U : Int}

theorem start (h : a < m) : Cofactors m a m a 0 1 where
  decreasing := h
  gcd := Nat.gcd_comm m a
  balance := by
    rw [Int.natAbs_zero, Int.natAbs_one, Nat.zero_mul, Nat.one_mul, Nat.zero_add]
  half := by
    rw [Int.natAbs_zero]
    omega
  signs := Or.inl ⟨Int.le_refl 0, by decide⟩
  left := ⟨-1, by ring⟩
  right := ⟨0, by ring⟩

theorem natAbs_next (h : Cofactors m a R S T U) (q : Nat) :
    (T - U * q).natAbs = T.natAbs + U.natAbs * q := by
  have hmul : (U * q).natAbs = U.natAbs * q := by rw [Int.natAbs_mul, Int.natAbs_natCast]
  rcases h.signs with ⟨hT, hU⟩ | ⟨hT, hU⟩
  · have hsign : 0 ≤ U * (q : Int) := Int.mul_nonneg hU (Int.natCast_nonneg q)
    omega
  · have hsign : U * (q : Int) ≤ 0 := Int.mul_nonpos_of_nonpos_of_nonneg hU (Int.natCast_nonneg q)
    omega

theorem signs_next (h : Cofactors m a R S T U) (q : Nat) :
    U ≤ 0 ∧ 0 ≤ T - U * q ∨ 0 ≤ U ∧ T - U * q ≤ 0 := by
  rcases h.signs with ⟨hT, hU⟩ | ⟨hT, hU⟩
  · have hsign : 0 ≤ U * (q : Int) := Int.mul_nonneg hU (Int.natCast_nonneg q)
    omega
  · have hsign : U * (q : Int) ≤ 0 := Int.mul_nonpos_of_nonpos_of_nonneg hU (Int.natCast_nonneg q)
    omega

theorem step (h : Cofactors m a R S T U) (hS : 0 < S) :
    Cofactors m a S (R % S) U (T - U * (R / S : Nat)) where
  decreasing := Nat.mod_lt R hS
  gcd := by
    rw [← h.gcd, Nat.gcd_comm S, ← Nat.gcd_rec, Nat.gcd_comm]
  balance := by
    have hdiv := Nat.mod_add_div R S
    have hbalance := h.balance
    rw [h.natAbs_next]
    calc
      U.natAbs * (R % S) + (T.natAbs + U.natAbs * (R / S)) * S =
          T.natAbs * S + U.natAbs * (R % S + S * (R / S)) := by ring
      _ = m := by rw [hdiv, hbalance]
  half := by
    have hR : 2 ≤ R := by
      have hlt := h.decreasing
      omega
    have hmul : U.natAbs * 2 ≤ U.natAbs * R := Nat.mul_le_mul_left _ hR
    have hbalance := h.balance
    omega
  signs := h.signs_next (R / S)
  left := h.right
  right := by
    obtain ⟨x, hx⟩ := h.left
    obtain ⟨y, hy⟩ := h.right
    have hdiv : ((R % S : Nat) : Int) + S * (R / S : Nat) = R := by
      exact_mod_cast Nat.mod_add_div R S
    exact ⟨x - y * (R / S : Nat), by linear_combination hx - (R / S : Nat) * hy - hdiv⟩

theorem gcd_eq (h : Cofactors m a R 0 T U) : R = Nat.gcd a m := by
  rw [← h.gcd, Nat.gcd_zero_right]

theorem inverse (h : Cofactors m a 1 0 T U) :
    ∃ x : Nat, (x : Int) = (if T < 0 then T + m else T) ∧ x < m ∧ a * x ≡ 1 [MOD m] := by
  have hm : 0 < m := by
    refine Nat.pos_of_ne_zero ?_
    rintro rfl
    obtain ⟨x, hx⟩ := h.left
    have hT : T = 0 := by
      have hhalf := h.half
      omega
    rw [hT] at hx
    omega
  have hhalf := h.half
  obtain ⟨y, hy⟩ := h.left
  have hmod : ∀ x : Nat, ∀ k : Int, (x : Int) = T + k * m → a * x ≡ 1 [MOD m] := by
    intro x k hx
    rw [← Int.natCast_modEq_iff]
    apply Int.ModEq.symm
    rw [Int.modEq_iff_dvd]
    push_cast at hy ⊢
    exact ⟨y + a * k, by rw [hx]; linear_combination hy⟩
  by_cases hneg : T < 0
  · refine ⟨(T + m).toNat, ?_, ?_, hmod _ 1 ?_⟩
    · rw [if_pos hneg]
      omega
    · omega
    · omega
  · refine ⟨T.toNat, ?_, ?_, hmod _ 0 ?_⟩
    · rw [if_neg hneg]
      omega
    · omega
    · omega

end Cofactors

end SmlnjLlvm
