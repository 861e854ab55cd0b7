import Mathlib.Algebra.Order.Ring.Nat
import Mathlib.Data.Nat.Prime.Basic
import Mathlib.Tactic.Ring
import Mathlib.Data.BitVec
import Mathlib.Data.Int.ModEq

/-!
# Factors of two and low bits

## Odd multiples of a power of two

A greatest common divisor of two odd multiples of one power of two is not changed
by further factors of two in one of the operands. The difference of two such
numbers has at least one factor of two more.
-/

namespace SmlnjLlvm

/-- An odd number times `2 ^ p`. -/
def OddMultiple (p n : Nat) : Prop := ∃ u, u % 2 = 1 ∧ n = 2 ^ p * u

namespace OddMultiple

variable {p q a b n : Nat}

theorem pos (h : OddMultiple p n) : 0 < n := by
  obtain ⟨u, hu, rfl⟩ := h
  exact Nat.mul_pos (Nat.two_pow_pos p) (by omega)

theorem div (h : OddMultiple p n) (hq : q ≤ p) : OddMultiple q (n / 2 ^ (p - q)) := by
  obtain ⟨u, hu, rfl⟩ := h
  refine ⟨u, hu, ?_⟩
  have hpow : 2 ^ p = 2 ^ (p - q) * 2 ^ q := by
    rw [← Nat.pow_add, Nat.sub_add_cancel hq]
  rw [hpow, Nat.mul_assoc, Nat.mul_div_cancel_left _ (Nat.two_pow_pos _)]

theorem mul_div (h : OddMultiple p n) (q : Nat) : 2 ^ (p - q) * (n / 2 ^ (p - q)) = n := by
  obtain ⟨u, hu, rfl⟩ := h
  refine Nat.mul_div_cancel' (Nat.dvd_mul_right_of_dvd ?_ u)
  exact Nat.pow_dvd_pow 2 (Nat.sub_le p q)

theorem gcd_two_pow_mul (hb : OddMultiple p b) (ha : OddMultiple p a) (k : Nat) :
    Nat.gcd (2 ^ k * a) b = Nat.gcd a b := by
  obtain ⟨u, hu, rfl⟩ := ha
  obtain ⟨v, hv, rfl⟩ := hb
  have hcoprime : Nat.Coprime (2 ^ k) v := by
    apply Nat.Coprime.pow_left
    rw [Nat.coprime_two_left, Nat.odd_iff]
    exact hv
  calc
    Nat.gcd (2 ^ k * (2 ^ p * u)) (2 ^ p * v) = Nat.gcd (2 ^ p * (2 ^ k * u)) (2 ^ p * v) := by
      rw [Nat.mul_left_comm]
    _ = 2 ^ p * Nat.gcd (2 ^ k * u) v := Nat.gcd_mul_left _ _ _
    _ = 2 ^ p * Nat.gcd u v := by rw [hcoprime.gcd_mul_left_cancel]
    _ = Nat.gcd (2 ^ p * u) (2 ^ p * v) := (Nat.gcd_mul_left _ _ _).symm

theorem gcd_div (ha : OddMultiple q a) (hb : OddMultiple p b) (hpq : p ≤ q) :
    Nat.gcd (a / 2 ^ (q - p)) b = Nat.gcd a b := by
  rw [← gcd_two_pow_mul hb (ha.div hpq) (q - p), ha.mul_div]

theorem exists_sub (ha : OddMultiple p a) (hb : OddMultiple p b) :
    ∃ d, a - b = 2 ^ (p + 1) * d := by
  obtain ⟨u, hu, rfl⟩ := ha
  obtain ⟨v, hv, rfl⟩ := hb
  refine ⟨(u - v) / 2, ?_⟩
  rw [← Nat.mul_sub, Nat.pow_succ, Nat.mul_assoc]
  congr 1
  omega

theorem le_of_dvd (h : OddMultiple q n) (hdvd : 2 ^ p ∣ n) : p ≤ q := by
  obtain ⟨u, hu, rfl⟩ := h
  by_contra hlt
  have hpow : 2 ^ (q + 1) ∣ 2 ^ q * u := Nat.dvd_trans (Nat.pow_dvd_pow 2 (by omega)) hdvd
  have htwo : 2 ∣ u := Nat.dvd_of_mul_dvd_mul_left (Nat.two_pow_pos q) hpow
  omega

end OddMultiple

end SmlnjLlvm

/-!
## Low bits of words

Two words have the same low bits when they are congruent modulo a power of two.
Factors that are known to a few low bits, with zeros below, determine more bits
of a product.
-/

namespace SmlnjLlvm.LowBits

variable {w : Nat}

theorem mod_eq_iff_bits {x y : BitVec w} {k : Nat} :
    x.toNat % 2 ^ k = y.toNat % 2 ^ k ↔ ∀ i < k, x.getLsbD i = y.getLsbD i := by
  constructor
  · intro h i hi
    have hbit := congrArg (fun n : Nat => n.testBit i) h
    simpa only [Nat.testBit_mod_two_pow, decide_eq_true hi, Bool.true_and, BitVec.testBit_toNat]
      using hbit
  · intro h
    apply Nat.eq_of_testBit_eq
    intro i
    rw [Nat.testBit_mod_two_pow, Nat.testBit_mod_two_pow, BitVec.testBit_toNat,
      BitVec.testBit_toNat]
    by_cases hi : i < k
    · rw [h i hi]
    · rw [decide_eq_false hi, Bool.false_and, Bool.false_and]

theorem dvd_iff_bits {x : BitVec w} {k : Nat} :
    2 ^ k ∣ x.toNat ↔ ∀ i < k, x.getLsbD i = false := by
  have h := mod_eq_iff_bits (x := x) (y := 0) (k := k)
  simp only [BitVec.ofNat_eq_ofNat, BitVec.toNat_zero, Nat.zero_mod, BitVec.getLsbD_zero] at h
  rw [Nat.dvd_iff_mod_eq_zero, h]

theorem sub_dvd_of_mod_eq {a b k : Nat} (h : a % 2 ^ k = b % 2 ^ k) :
    (2 : Int) ^ k ∣ (a : Int) - b := by
  have hmod : ((b : Int) : Int) ≡ a [ZMOD ((2 ^ k : Nat) : Int)] :=
    Int.natCast_modEq_iff.mpr h.symm
  have hdvd := hmod.dvd
  rwa [Nat.cast_pow] at hdvd

theorem mod_eq_of_sub_dvd {a b k : Nat} (h : (2 : Int) ^ k ∣ (a : Int) - b) :
    a % 2 ^ k = b % 2 ^ k := by
  have hmod : ((b : Int) : Int) ≡ a [ZMOD ((2 ^ k : Nat) : Int)] := by
    rw [Int.modEq_iff_dvd, Nat.cast_pow]
    exact h
  exact (Int.natCast_modEq_iff.mp hmod).symm

theorem toNat_sub_toInt_dvd (v : BitVec w) {n : Nat} (hn : n ≤ w) :
    (2 : Int) ^ n ∣ (v.toNat : Int) - v.toInt := by
  rw [BitVec.toInt_eq_toNat_cond]
  split
  · rw [Int.sub_self]
    exact Int.dvd_zero _
  · rw [Int.sub_sub_self, Nat.cast_pow]
    exact pow_dvd_pow 2 hn

theorem two_pow_dvd_toInt {v : BitVec w} {n : Nat} (hn : n ≤ w) :
    (2 : Int) ^ n ∣ v.toInt ↔ 2 ^ n ∣ v.toNat := by
  have hnat : (2 : Int) ^ n ∣ (v.toNat : Int) ↔ 2 ^ n ∣ v.toNat := by
    rw [← Int.natCast_dvd_natCast, Nat.cast_pow]
    rfl
  rw [← hnat]
  exact (Int.dvd_iff_dvd_of_dvd_sub (toNat_sub_toInt_dvd v hn)).symm

theorem bits_eq_of_dvd_toInt_sub {x y : BitVec w} {n i : Nat} (hn : n ≤ w)
    (h : (2 : Int) ^ n ∣ x.toInt - y.toInt) (hi : i < n) : x.getLsbD i = y.getLsbD i := by
  refine mod_eq_iff_bits.mp (mod_eq_of_sub_dvd ?_) i hi
  have hsum : (x.toNat : Int) - y.toNat =
      (x.toNat - x.toInt) + (x.toInt - y.toInt) - (y.toNat - y.toInt) := by omega
  rw [hsum]
  exact Int.dvd_sub (Int.dvd_add (toNat_sub_toInt_dvd x hn) h) (toNat_sub_toInt_dvd y hn)

theorem not_dvd_mul {x y a b : Nat} (ha : 2 ^ a ∣ x) (hb : 2 ^ b ∣ y) (ha' : ¬2 ^ (a + 1) ∣ x)
    (hb' : ¬2 ^ (b + 1) ∣ y) : ¬2 ^ (a + b + 1) ∣ x * y := by
  obtain ⟨x', rfl⟩ := ha
  obtain ⟨y', rfl⟩ := hb
  intro h
  have hsplit : 2 ^ a * x' * (2 ^ b * y') = 2 ^ (a + b) * (x' * y') := by
    rw [Nat.pow_add]
    ring
  rw [hsplit, Nat.pow_succ] at h
  have htwo : 2 ∣ x' * y' := Nat.dvd_of_mul_dvd_mul_left (Nat.two_pow_pos _) h
  rcases Nat.prime_two.dvd_mul.mp htwo with hx | hy
  · exact ha' (by rw [Nat.pow_succ]; exact Nat.mul_dvd_mul_left _ hx)
  · exact hb' (by rw [Nat.pow_succ]; exact Nat.mul_dvd_mul_left _ hy)

theorem mul_sub_mul_dvd {a b c d : Int} {m n i j : Nat} (hac : (2 : Int) ^ m ∣ a - c)
    (hbd : (2 : Int) ^ n ∣ b - d) (hc : (2 : Int) ^ i ∣ c) (hb : (2 : Int) ^ j ∣ b) (hi : i ≤ m)
    (hj : j ≤ n) : (2 : Int) ^ (min (m - i) (n - j) + (i + j)) ∣ a * b - c * d := by
  have hleft : (2 : Int) ^ (min (m - i) (n - j) + (i + j)) ∣ (a - c) * b := by
    have hdvd := mul_dvd_mul hac hb
    rw [← pow_add] at hdvd
    exact (pow_dvd_pow 2 (by omega)).trans hdvd
  have hright : (2 : Int) ^ (min (m - i) (n - j) + (i + j)) ∣ c * (b - d) := by
    have hdvd := mul_dvd_mul hc hbd
    rw [← pow_add] at hdvd
    exact (pow_dvd_pow 2 (by omega)).trans hdvd
  have hsum : a * b - c * d = (a - c) * b + c * (b - d) := by ring
  rw [hsum]
  exact Int.dvd_add hleft hright

theorem square_bit_one (x : BitVec w) : (x * x).getLsbD 1 = false := by
  rcases Nat.lt_or_ge 1 w with hw | hw
  · have hfour : 2 ^ 2 ∣ 2 ^ w := pow_dvd_pow 2 hw
    have hsquare : x.toNat * x.toNat % 4 = 0 ∨ x.toNat * x.toNat % 4 = 1 := by
      have hmod := Nat.mul_mod x.toNat x.toNat 4
      have hcases : x.toNat % 4 = 0 ∨ x.toNat % 4 = 1 ∨ x.toNat % 4 = 2 ∨ x.toNat % 4 = 3 := by
        omega
      rcases hcases with h | h | h | h <;> rw [hmod, h] <;> decide
    have hlow : (x * x).toNat % 2 ^ 2 = x.toNat * x.toNat % 4 := by
      rw [BitVec.toNat_mul, Nat.mod_mod_of_dvd _ hfour]
      rfl
    rw [← BitVec.testBit_toNat]
    have hbit : ((x * x).toNat % 2 ^ 2).testBit 1 = (x * x).toNat.testBit 1 := by
      rw [Nat.testBit_mod_two_pow]
      rfl
    rw [← hbit, hlow]
    rcases hsquare with h | h
    · rw [h]
      rfl
    · rw [h]
      rfl
  · exact BitVec.getLsbD_of_ge _ _ hw

end SmlnjLlvm.LowBits
