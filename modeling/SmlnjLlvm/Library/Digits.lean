import Mathlib.Algebra.Order.Ring.Nat
import Mathlib.Tactic.Ring
import Mathlib.Logic.Function.Basic
import SmlnjLlvm.Library.Loop
import Mathlib.Data.Nat.Digits.Lemmas

/-!
# Numbers as arrays of digits

The value of part of an array in a base, least significant digit first, and
loops that count up or down over the positions of an array.
-/

namespace SmlnjLlvm.Digits

/-- The value of `n` digits from position `lo` on. -/
def value (b : Nat) (d : Nat → Nat) (lo : Nat) : Nat → Nat
  | 0 => 0
  | n + 1 => value b d lo n + d (lo + n) * b ^ n

variable {b : Nat} {d d' : Nat → Nat}

theorem value_succ (lo n : Nat) : value b d lo (n + 1) = value b d lo n + d (lo + n) * b ^ n := rfl

theorem value_congr {lo lo' n : Nat} (h : ∀ i < n, d (lo + i) = d' (lo' + i)) :
    value b d lo n = value b d' lo' n := by
  induction n with
  | zero => rfl
  | succ n ih =>
    rw [value_succ, value_succ, h n (Nat.lt_succ_self n),
      ih fun i hi => h i (Nat.lt_succ_of_lt hi)]

theorem value_lt {lo n : Nat} (h : ∀ i < n, d (lo + i) < b) : value b d lo n < b ^ n := by
  induction n with
  | zero => exact Nat.one_pos
  | succ n ih =>
    have hlow := ih fun i hi => h i (Nat.lt_succ_of_lt hi)
    have htop := Nat.mul_le_mul_right (b ^ n) (h n (Nat.lt_succ_self n))
    rw [Nat.succ_mul] at htop
    rw [value_succ, pow_succ']
    omega

theorem value_add (lo n m : Nat) :
    value b d lo (n + m) = value b d lo n + b ^ n * value b d (lo + n) m := by
  induction m with
  | zero => rw [Nat.add_zero, value, Nat.mul_zero, Nat.add_zero]
  | succ m ih =>
    rw [← Nat.add_assoc, value_succ, ih, value_succ, Nat.add_assoc lo n m]
    ring

theorem value_one (lo : Nat) : value b d lo 1 = d lo := by
  rw [value_succ, value, Nat.add_zero, pow_zero, Nat.mul_one, Nat.zero_add]

theorem value_succ' (lo n : Nat) :
    value b d lo (n + 1) = d lo + b * value b d (lo + 1) n := by
  rw [Nat.add_comm n 1, value_add, value_one, pow_one]

theorem value_of_zeros {lo n m : Nat} (hle : n ≤ m) (h : ∀ i, n ≤ i → i < m → d (lo + i) = 0) :
    value b d lo m = value b d lo n := by
  obtain ⟨k, rfl⟩ := Nat.exists_eq_add_of_le hle
  rw [value_add]
  have hzero : value b d (lo + n) k = value b (fun _ => 0) (lo + n) k := by
    refine value_congr fun i hi => ?_
    rw [Nat.add_assoc]
    exact h (n + i) (Nat.le_add_right n i) (by omega)
  have hnull : ∀ k, value b (fun _ => 0) (lo + n) k = 0 := by
    intro k
    induction k with
    | zero => rfl
    | succ k ih => rw [value_succ, ih, Nat.zero_mul]
  rw [hzero, hnull, Nat.mul_zero, Nat.add_zero]

theorem le_value (lo : Nat) {n i : Nat} (hi : i < n) : d (lo + i) * b ^ i ≤ value b d lo n := by
  induction n with
  | zero => exact absurd hi (Nat.not_lt_zero i)
  | succ n ih =>
    rw [value_succ]
    rcases Nat.eq_or_lt_of_le (Nat.le_of_lt_succ hi) with heq | hlt
    · rw [heq]
      exact Nat.le_add_left _ _
    · exact Nat.le_trans (ih hlt) (Nat.le_add_right _ _)

theorem split_unique {x y s t : Nat} (hx : x < b) (hy : y < b) (h : x + s * b = y + t * b) :
    x = y ∧ s = t := by
  have hmod := congrArg (· % b) h
  have hdiv := congrArg (· / b) h
  have hb : 0 < b := Nat.lt_of_le_of_lt (Nat.zero_le x) hx
  simp only [Nat.add_mul_mod_self_right, Nat.mod_eq_of_lt hx, Nat.mod_eq_of_lt hy] at hmod
  simp only [Nat.add_mul_div_right _ _ hb, Nat.div_eq_of_lt hx, Nat.div_eq_of_lt hy,
    Nat.zero_add] at hdiv
  exact ⟨hmod, hdiv⟩

theorem value_pairs {lo n : Nat} (h : ∀ i < n, d' i = d (lo + 2 * i) + b * d (lo + 2 * i + 1)) :
    value b d lo (2 * n) = value (b ^ 2) d' 0 n := by
  induction n with
  | zero => rfl
  | succ n ih =>
    rw [Nat.mul_succ, value_succ (d := d'), ← ih fun i hi => h i (Nat.lt_succ_of_lt hi),
      Nat.zero_add, h n (Nat.lt_succ_self n)]
    rw [value_succ, value_succ, ← pow_mul, ← Nat.add_assoc lo]
    ring

variable {σ : Type}

/-- `body` at `0`, …, `n - 1`. -/
def upto (body : Nat → σ → σ) : Nat → σ → σ
  | 0, s => s
  | n + 1, s => body n (upto body n s)

/-- `body` at `n - 1`, …, `0`. -/
def downFrom (body : Nat → σ → σ) : Nat → σ → σ
  | 0, s => s
  | n + 1, s => downFrom body n (body n s)

theorem upto_rule {f : Nat → σ → σ} (Inv : Nat → σ → Prop) {n : Nat} {s : σ} (h : Inv 0 s)
    (hbody : ∀ i s, i < n → Inv i s → Inv (i + 1) (f i s)) : Inv n (upto f n s) := by
  induction n with
  | zero => exact h
  | succ n ih =>
    exact hbody n _ (Nat.lt_succ_self n) (ih fun i s hi => hbody i s (Nat.lt_succ_of_lt hi))

theorem downFrom_rule {f : Nat → σ → σ} (Inv : Nat → σ → Prop) {n : Nat} {s : σ} (h : Inv n s)
    (hbody : ∀ i s, i < n → Inv (i + 1) s → Inv i (f i s)) : Inv 0 (downFrom f n s) := by
  induction n generalizing s with
  | zero => exact h
  | succ n ih =>
    exact ih (hbody n s (Nat.lt_succ_self n) h) fun i s hi => hbody i s (Nat.lt_succ_of_lt hi)

end SmlnjLlvm.Digits

/-!
## Numerals

The value of a list of digits in a base, the most significant digit first, and
how many bits numerals of some length need.
-/

namespace SmlnjLlvm.Numerals

open Loop

def numeralFrom (b v : Nat) (ds : List Nat) : Nat := ds.foldl (fun v d => v * b + d) v

/-- The value of the digits in base `b`. -/
def numeral (b : Nat) (ds : List Nat) : Nat := numeralFrom b 0 ds

theorem numeralFrom_cons (b v d : Nat) (ds : List Nat) :
    numeralFrom b v (d :: ds) = numeralFrom b (v * b + d) ds := rfl

theorem numeralFrom_eq (b v : Nat) (ds : List Nat) :
    numeralFrom b v ds = v * b ^ ds.length + Nat.ofDigits b ds.reverse := by
  induction ds generalizing v with
  | nil => simp [numeralFrom]
  | cons d ds ih =>
    rw [numeralFrom_cons, ih, List.reverse_cons, Nat.ofDigits_append, Nat.ofDigits_singleton,
      List.length_reverse, List.length_cons, Nat.pow_succ]
    ring

theorem numeral_eq (b : Nat) (ds : List Nat) : numeral b ds = Nat.ofDigits b ds.reverse := by
  rw [numeral, numeralFrom_eq, Nat.zero_mul, Nat.zero_add]

theorem numeral_singleton (b d : Nat) : numeral b [d] = d := by
  simp [numeral, numeralFrom]

theorem numeral_lt {b : Nat} (hb : 1 < b) {ds : List Nat} (h : ∀ d ∈ ds, d < b) :
    numeral b ds < b ^ ds.length := by
  rw [numeral_eq, ← List.length_reverse]
  exact Nat.ofDigits_lt_base_pow_length hb fun d hd => h d (List.mem_reverse.mp hd)

theorem numeral_digits (b n : Nat) : numeral b (b.digits n).reverse = n := by
  rw [numeral_eq, List.reverse_reverse, Nat.ofDigits_digits]

/-- A loop that pushes the remainder and goes on with the quotient writes the digits. The output
may be of limited length. -/
theorem loop_digits {σ α : Type} {b : Nat} (hb : 1 < b)
    {turn : σ × List α → Option (Turn (σ × List α) (List α))} (val : σ → Nat) {digit : α → Nat}
    (push : List α → α → List α) (room : Nat) (hpush : ∀ L c, (push L c).length = L.length + 1)
    (hexit : ∀ s L, val s = 0 → turn (s, L) = some (.exit L))
    (hnext : ∀ s L, val s ≠ 0 → L.length < room → ∃ s' c,
      turn (s, L) = some (.next (s', push L c)) ∧ val s' = val s / b ∧ digit c = val s % b)
    (turns : Nat) :
    ∀ s L, L.length + (b.digits (val s)).length ≤ room → (b.digits (val s)).length < turns →
      ∃ cs : List α, loop turn turns (s, L) = some (cs.foldl push L) ∧
        cs.map digit = b.digits (val s) := by
  induction turns with
  | zero =>
    intro s L _ hturns
    exact absurd hturns (Nat.not_lt_zero _)
  | succ turns ih =>
    intro s L hroom hturns
    by_cases hzero : val s = 0
    · refine ⟨[], loop_exit (hexit s L hzero) turns, ?_⟩
      rw [hzero, Nat.digits_zero]
      rfl
    · have hdigits := Nat.digits_def' hb (Nat.pos_of_ne_zero hzero)
      rw [hdigits, List.length_cons] at hroom hturns
      obtain ⟨s', c, hturn, hquot, hrem⟩ := hnext s L hzero (by omega)
      have hlength := hpush L c
      rw [← hquot] at hroom hturns hdigits
      obtain ⟨cs, hrun, hcs⟩ := ih s' (push L c) (by omega) (by omega)
      refine ⟨c :: cs, ?_, ?_⟩
      · rw [loop_next hturn, hrun, List.foldl_cons]
      · rw [List.map_cons, hcs, hrem, hdigits]

theorem foldl_snoc {α : Type} (cs L : List α) : cs.foldl (fun L c => L ++ [c]) L = L ++ cs := by
  induction cs generalizing L with
  | nil => exact (List.append_nil L).symm
  | cons c cs ih => rw [List.foldl_cons, ih, List.append_assoc, List.singleton_append]

/-- Numerals of `n` digits have at most `n * Q / P` bits from a length on, when this holds for
the lengths of one period. -/
theorem pow_le_two_pow_ratio {b p q k P Q : Nat} (hP : 0 < P) (hp : 0 < p)
    (hratio : Q * p = q * P) (hperiod : b ^ p ≤ 2 ^ q)
    (hbase : ∀ n, k ≤ n → n < k + p → b ^ n ≤ 2 ^ (n * Q / P)) {n : Nat} (hn : k ≤ n) :
    b ^ n ≤ 2 ^ (n * Q / P) := by
  induction n using Nat.strongRecOn with
  | ind n ih =>
    by_cases hlt : n < k + p
    · exact hbase n hn hlt
    · obtain ⟨m, rfl⟩ : ∃ m, n = m + p := ⟨n - p, by omega⟩
      have hshift : (m + p) * Q / P = m * Q / P + q := by
        rw [Nat.add_mul, Nat.mul_comm p Q, hratio, Nat.add_mul_div_right _ _ hP]
      rw [hshift, Nat.pow_add, Nat.pow_add]
      exact Nat.mul_le_mul (ih m (by omega) (by omega)) hperiod

end SmlnjLlvm.Numerals
