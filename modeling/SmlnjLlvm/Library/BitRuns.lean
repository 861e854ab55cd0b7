import SmlnjLlvm.Library.Words
import Mathlib.Data.Nat.Factorization.Basic
import Mathlib.Data.Nat.Prime.Pow

/-!
# Runs of ones

Blocks of ones inside a number, and runs on a ring of bits, where a run may
pass the end and go on at the start. A shorter period of a run on a ring would
map its last one and the zero after it to a place where the order is reversed.
-/

namespace SmlnjLlvm.BitRuns

open Words

variable {w : Nat}

theorem testBit_run (lo n i : Nat) :
    (2 ^ lo * (2 ^ n - 1)).testBit i = decide (lo ≤ i ∧ i < lo + n) := by
  rw [Nat.testBit_two_pow_mul, Nat.testBit_two_pow_sub_one, ← Bool.decide_and, decide_eq_decide]
  omega

theorem succ_and_eq_zero_iff (u : Nat) : (u + 1) &&& u = 0 ↔ ∃ n, u = 2 ^ n - 1 := by
  constructor
  · intro h
    induction u using Nat.strongRecOn with
    | ind u ih =>
      rcases Nat.eq_zero_or_pos u with hzero | hpos
      · exact ⟨0, hzero⟩
      · have hhalf : (u + 1) / 2 &&& u / 2 = 0 := by rw [← Nat.and_div_two, h]
        rcases Nat.mod_two_eq_zero_or_one u with heven | hodd
        · have heq : (u + 1) / 2 = u / 2 := by omega
          rw [heq, Nat.and_self] at hhalf
          omega
        · have heq : (u + 1) / 2 = u / 2 + 1 := by omega
          rw [heq] at hhalf
          obtain ⟨n, hn⟩ := ih (u / 2) (Nat.div_lt_self hpos (by decide)) hhalf
          refine ⟨n + 1, ?_⟩
          have hpow := Nat.two_pow_pos n
          rw [pow_succ 2 n]
          omega
  · rintro ⟨n, rfl⟩
    have hpow := Nat.two_pow_pos n
    rw [Nat.sub_add_cancel hpow]
    refine Nat.eq_of_testBit_eq fun i => ?_
    rw [Nat.testBit_and, Nat.testBit_two_pow, Nat.testBit_two_pow_sub_one, Nat.zero_testBit,
      Bool.and_eq_false_iff, decide_eq_false_iff_not, decide_eq_false_iff_not]
    omega

theorem pred_or (lo q : Nat) :
    (2 ^ lo * (2 * q + 1) - 1) ||| 2 ^ lo * (2 * q + 1) = 2 ^ (lo + 1) * (q + 1) - 1 := by
  have hpow := Nat.two_pow_pos lo
  have hpred : 2 ^ lo * (2 * q + 1) - 1 = 2 ^ lo * (2 * q) + (2 ^ lo - 1) := by
    rw [Nat.mul_succ]
    omega
  have hright : 2 ^ (lo + 1) * (q + 1) - 1 = 2 ^ lo * (2 * q + 1) + (2 ^ lo - 1) := by
    have hmul : 2 ^ (lo + 1) * (q + 1) = 2 ^ lo * (2 * q + 1) + 2 ^ lo := by
      rw [pow_succ 2 lo]
      ring
    rw [hmul]
    omega
  rw [hpred, hright]
  refine Nat.eq_of_testBit_eq fun i => ?_
  rw [Nat.testBit_or, Nat.testBit_two_pow_mul_add _ (Nat.sub_one_lt_of_lt hpow),
    Nat.testBit_two_pow_mul_add _ (Nat.sub_one_lt_of_lt hpow), Nat.testBit_two_pow_mul]
  by_cases hi : i < lo
  · rw [if_pos hi, if_pos hi, Nat.testBit_two_pow_sub_one]
    simp [hi]
  · rw [if_neg hi, if_neg hi]
    have hge : lo ≤ i := Nat.not_lt.mp hi
    rw [decide_eq_true hge, Bool.true_and]
    cases hk : i - lo with
    | zero => simp
    | succ k => simp [Nat.testBit_succ, Nat.mul_add_div]

theorem getLsbD_run {v : BitVec w} {lo n : Nat} (h : v.toNat = 2 ^ lo * (2 ^ n - 1)) (i : Nat) :
    v.getLsbD i = decide (lo ≤ i ∧ i < lo + n) := by
  rw [← BitVec.testBit_toNat, h, testBit_run]

theorem toNat_run {v : BitVec w} {lo n : Nat}
    (h : ∀ i, v.getLsbD i = decide (lo ≤ i ∧ i < lo + n)) : v.toNat = 2 ^ lo * (2 ^ n - 1) := by
  refine Nat.eq_of_testBit_eq fun i => ?_
  rw [BitVec.testBit_toNat, h i, testBit_run]

/-- A run of `n` ones from bit `0` on, rotated right by `R` on a ring of `size` bits. -/
def ringRun (size R n i : Nat) : Bool := decide ((i + R) % size < n)

theorem ringRun_mod (size R n i : Nat) : ringRun size R n (i % size) = ringRun size R n i := by
  unfold ringRun
  rw [Nat.mod_add_mod]

theorem ringRun_mod_of_dvd {size t : Nat} (h : size ∣ t) (R n i : Nat) :
    ringRun size R n (i % t) = ringRun size R n i := by
  rw [← ringRun_mod, Nat.mod_mod_of_dvd _ h, ringRun_mod]

theorem ringRun_at {size m : Nat} (hm : m < size) (R n t : Nat) :
    ringRun size R n (size - R % size + m + t) = decide ((m + t) % size < n) := by
  have hR := Nat.mod_lt R (Nat.lt_of_le_of_lt (Nat.zero_le m) hm)
  unfold ringRun
  have hsum : (size - R % size + m + t + R) % size = (m + t) % size := by
    rw [Nat.add_mod (size - R % size + m + t) R, Nat.mod_add_mod]
    have heq : size - R % size + m + t + R % size = m + t + size := by omega
    rw [heq, Nat.add_mod_right]
  rw [hsum]

theorem exists_ringRun {size m : Nat} (hm : m < size) (R n : Nat) :
    ∃ i < size, ringRun size R n i = decide (m < n) := by
  refine ⟨(size - R % size + m) % size, Nat.mod_lt _ (Nat.lt_of_le_of_lt (Nat.zero_le m) hm), ?_⟩
  rw [ringRun_mod, ← Nat.add_zero (size - R % size + m), ringRun_at hm, Nat.add_zero,
    Nat.mod_eq_of_lt hm]

theorem ringRun_no_period {size R n h : Nat} (hn : 0 < n) (hlt : n < size) (hh : 0 < h)
    (hsize : h < size) (hperiod : ∀ i, ringRun size R n (i + h) = ringRun size R n i) : False := by
  have hlast := hperiod (size - R % size + (n - 1))
  have hnext := hperiod (size - R % size + n)
  rw [ringRun_at (by omega), ← Nat.add_zero (size - R % size + (n - 1)), ringRun_at (by omega),
    decide_eq_decide, Nat.add_zero, Nat.mod_eq_of_lt (a := n - 1) (by omega)] at hlast
  rw [ringRun_at hlt, ← Nat.add_zero (size - R % size + n), ringRun_at hlt, decide_eq_decide,
    Nat.add_zero, Nat.mod_eq_of_lt hlt] at hnext
  have hwrap : size ≤ n - 1 + h := by
    by_contra hsmall
    rw [Nat.mod_eq_of_lt (by omega)] at hlast
    omega
  rw [Nat.mod_eq_sub_mod (by omega), Nat.mod_eq_of_lt (by omega)] at hnext
  omega

theorem add_mod_ring {size i R : Nat} (hi : i < size) (hR : R < size) :
    (i + R) % size = if i + R < size then i + R else i + R - size := by
  by_cases hlt : i + R < size
  · rw [if_pos hlt, Nat.mod_eq_of_lt hlt]
  · rw [if_neg hlt, Nat.mod_eq_sub_mod (Nat.not_lt.mp hlt), Nat.mod_eq_of_lt (by omega)]

theorem ringRun_from {size lo i : Nat} (hi : i < size) (hlo : lo < size) (n : Nat) :
    ringRun size ((size - lo) % size) n i =
      decide ((if lo ≤ i then i - lo else i + size - lo) < n) := by
  unfold ringRun
  rw [Nat.add_mod_mod]
  by_cases hle : lo ≤ i
  · have heq : i + (size - lo) = i - lo + size := by omega
    rw [if_pos hle, heq, Nat.add_mod_right, Nat.mod_eq_of_lt (by omega)]
  · have heq : i + (size - lo) = i + size - lo := by omega
    rw [if_neg hle, heq, Nat.mod_eq_of_lt (by omega)]

end SmlnjLlvm.BitRuns
