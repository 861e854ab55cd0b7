import Mathlib.Algebra.Order.Floor.Ring
import Mathlib.Data.Int.Log
import Mathlib.Data.Rat.Floor
import Mathlib.Tactic.FieldSimp
import Mathlib.Tactic.Linarith
import Mathlib.Tactic.Ring

/-!
# Numbers with binary scales

Digits at a scale stand for a rational number. A rational number that is split
at a scale into whole units and a fraction rounds by the fraction alone.
-/

namespace SmlnjLlvm.Scaled

/-- The number with the digits `D` at the scale `S`. -/
def value (D : Nat) (S : Int) : ℚ := D * 2 ^ S

theorem two_zpow_pos (S : Int) : (0 : ℚ) < 2 ^ S := zpow_pos (by decide) S

theorem value_zero (S : Int) : value 0 S = 0 := by
  simp [value]

theorem value_nonneg (D : Nat) (S : Int) : 0 ≤ value D S :=
  mul_nonneg (Nat.cast_nonneg D) (two_zpow_pos S).le

theorem value_pos {D : Nat} (hD : 0 < D) (S : Int) : 0 < value D S :=
  mul_pos (Nat.cast_pos.mpr hD) (two_zpow_pos S)

theorem value_shift (D n : Nat) (S : Int) : value (D * 2 ^ n) (S - n) = value D S := by
  unfold value
  rw [zpow_sub₀ (by decide : (2 : ℚ) ≠ 0), zpow_natCast]
  push_cast
  field_simp

theorem value_lt_iff (D E : Nat) (S : Int) : value D S < value E S ↔ D < E := by
  unfold value
  rw [mul_lt_mul_iff_left₀ (two_zpow_pos S), Nat.cast_lt]

theorem value_le_iff (D E : Nat) (S : Int) : value D S ≤ value E S ↔ D ≤ E := by
  unfold value
  rw [mul_le_mul_iff_left₀ (two_zpow_pos S), Nat.cast_le]

/-- The sign of the difference, as comparison functions return it. -/
def order (p q : ℚ) : Int := if p < q then -1 else if q < p then 1 else 0

theorem order_self (p : ℚ) : order p p = 0 := by
  simp [order]

theorem order_of_lt {p q : ℚ} (h : p < q) : order p q = -1 := if_pos h

theorem order_of_gt {p q : ℚ} (h : q < p) : order p q = 1 := by
  rw [order, if_neg h.not_gt, if_pos h]

theorem neg_order (p q : ℚ) : -order p q = order q p := by
  rcases lt_trichotomy p q with h | rfl | h
  · rw [order_of_lt h, order_of_gt h, neg_neg]
  · rw [order_self, neg_zero]
  · rw [order_of_lt h, order_of_gt h]

theorem order_eq_zero_iff (p q : ℚ) : order p q = 0 ↔ p = q := by
  rcases lt_trichotomy p q with h | rfl | h
  · rw [order_of_lt h]
    exact iff_of_false (by decide) h.ne
  · exact iff_of_true (order_self p) rfl
  · rw [order_of_gt h]
    exact iff_of_false (by decide) h.ne'

theorem log_eq {q : ℚ} {f : Int} (hlo : 2 ^ f ≤ q) (hhi : q < 2 ^ (f + 1)) : Int.log 2 q = f := by
  have hq : 0 < q := (two_zpow_pos f).trans_le hlo
  have hge := (Int.zpow_le_iff_le_log (b := 2) (x := f) (by decide) hq).mp (by exact_mod_cast hlo)
  have hlt := (Int.lt_zpow_iff_log_lt (b := 2) (x := f + 1) (by decide) hq).mp
    (by exact_mod_cast hhi)
  omega

theorem clog_eq {q : ℚ} {f : Int} (hlo : 2 ^ (f - 1) < q) (hhi : q ≤ 2 ^ f) : Int.clog 2 q = f := by
  have hq : 0 < q := (two_zpow_pos (f - 1)).trans hlo
  have hle := (Int.le_zpow_iff_clog_le (b := 2) (x := f) (by decide) hq).mp (by exact_mod_cast hhi)
  have hgt := (Int.zpow_lt_iff_lt_clog (b := 2) (x := f - 1) (by decide) hq).mp
    (by exact_mod_cast hlo)
  omega

/-! ## Rounding -/

/-- `D` is the number of units `2 ^ S` in `q`, where a half counts as a whole. -/
def HalfUp (q : ℚ) (D : Nat) (S : Int) : Prop := ⌊q / 2 ^ S + 1 / 2⌋ = (D : Int)

/-- `q` has `D` whole units `2 ^ S` and the fraction `r / M` of another. -/
structure Parts (q : ℚ) (D r M : Nat) (S : Int) : Prop where
  lt : r < M
  eq : q = (D + r / M) * 2 ^ S

namespace Parts

variable {q : ℚ} {D r M : Nat} {S : Int}

theorem natCast (N : Nat) : Parts N N 0 1 0 := ⟨Nat.one_pos, by simp⟩

theorem quotient (N M : Nat) (hM : 0 < M) (S : Int) :
    Parts ((N : ℚ) / M * 2 ^ S) (N / M) (N % M) M S := by
  refine ⟨Nat.mod_lt N hM, ?_⟩
  have hsplit : ((N : ℕ) : ℚ) = M * (N / M : ℕ) + (N % M : ℕ) := by
    exact_mod_cast (Nat.div_add_mod N M).symm
  rw [hsplit]
  field_simp

theorem value_eq (h : Parts q D 0 M S) : value D S = q := by
  rw [h.eq, value]
  simp

theorem shift (h : Parts q D r M S) (n : Nat) :
    Parts q (D / 2 ^ n) (D % 2 ^ n * M + r) (2 ^ n * M) (S + n) := by
  have hpow := Nat.two_pow_pos n
  refine ⟨?_, ?_⟩
  · have hlow := Nat.mod_lt D hpow
    calc D % 2 ^ n * M + r < D % 2 ^ n * M + M := Nat.add_lt_add_left h.lt _
      _ = (D % 2 ^ n + 1) * M := by ring
      _ ≤ 2 ^ n * M := Nat.mul_le_mul_right M hlow
  · have hsplit : (D : ℚ) = 2 ^ n * (D / 2 ^ n : ℕ) + (D % 2 ^ n : ℕ) := by
      exact_mod_cast (Nat.div_add_mod D (2 ^ n)).symm
    have hM : (M : ℚ) ≠ 0 := Nat.cast_ne_zero.mpr (Nat.zero_lt_of_lt h.lt).ne'
    rw [h.eq, zpow_add₀ (by decide : (2 : ℚ) ≠ 0), zpow_natCast]
    push_cast
    rw [hsplit]
    field_simp
    ring

theorem double (h : Parts q D r M S) :
    Parts q (2 * D + if M ≤ 2 * r then 1 else 0) (2 * r - if M ≤ 2 * r then M else 0) M (S - 1) := by
  have hlt := h.lt
  have hM : (M : ℚ) ≠ 0 := Nat.cast_ne_zero.mpr (Nat.zero_lt_of_lt hlt).ne'
  refine ⟨?_, ?_⟩
  · split
    · omega
    · omega
  · rw [h.eq, zpow_sub_one₀ (by decide : (2 : ℚ) ≠ 0)]
    by_cases hhalf : M ≤ 2 * r
    · rw [if_pos hhalf, if_pos hhalf, Nat.cast_sub hhalf]
      push_cast
      field_simp
      ring
    · rw [if_neg hhalf, if_neg hhalf, Nat.sub_zero]
      push_cast
      field_simp
      ring

theorem half_shift (h : Parts q D r M S) (n : Nat) :
    2 ^ (n + 1) * M ≤ 2 * (D % 2 ^ (n + 1) * M + r) ↔ D.testBit n = true := by
  have hbit : D.testBit n = true ↔ 2 ^ n ≤ D % 2 ^ (n + 1) := by
    rw [Nat.testBit_eq_decide_div_mod_eq, decide_eq_true_iff, Nat.mod_pow_succ,
      Nat.mul_comm]
    rcases Nat.mod_two_eq_zero_or_one (D / 2 ^ n) with hd | hd
    · rw [hd]
      omega
    · rw [hd]
      omega
  rw [hbit, Nat.pow_succ]
  generalize D % (2 ^ n * 2) = a
  constructor
  · intro hle
    by_contra hlt
    have hstep : (a + 1) * M ≤ 2 ^ n * M := Nat.mul_le_mul_right M (Nat.not_le.mp hlt)
    have hM := h.lt
    have hexp : (a + 1) * M = a * M + M := Nat.succ_mul a M
    have htwo : 2 ^ n * 2 * M = 2 * (2 ^ n * M) := by ring
    omega
  · intro hle
    have hstep : 2 ^ n * M ≤ a * M := Nat.mul_le_mul_right M hle
    have htwo : 2 ^ n * 2 * M = 2 * (2 ^ n * M) := by ring
    omega

theorem units (h : Parts q D r M S) : q / 2 ^ S = D + r / M := by
  rw [h.eq, mul_div_assoc, div_self (two_zpow_pos S).ne', mul_one]

theorem halfUp (h : Parts q D r M S) : HalfUp q (D + if M ≤ 2 * r then 1 else 0) S := by
  have hM : (0 : ℚ) < M := Nat.cast_pos.mpr (Nat.zero_lt_of_lt h.lt)
  have hlt : (r : ℚ) / M < 1 := (div_lt_one hM).mpr (Nat.cast_lt.mpr h.lt)
  have hnonneg : (0 : ℚ) ≤ r / M := div_nonneg (Nat.cast_nonneg r) hM.le
  unfold HalfUp
  rw [Int.floor_eq_iff, h.units]
  by_cases hhalf : M ≤ 2 * r
  · have hge : (1 : ℚ) / 2 ≤ r / M := by
      rw [div_le_div_iff₀ (by decide) hM, one_mul, mul_comm]
      exact_mod_cast hhalf
    rw [if_pos hhalf]
    push_cast
    constructor
    · linarith
    · linarith
  · have hless : (r : ℚ) / M < 1 / 2 := by
      rw [div_lt_div_iff₀ hM (by decide), one_mul, mul_comm]
      exact_mod_cast Nat.not_le.mp hhalf
    rw [if_neg hhalf]
    push_cast
    constructor
    · linarith
    · linarith

end Parts

theorem HalfUp.double {q : ℚ} {D : Nat} {S : Int} (h : HalfUp q (2 * D) S) :
    HalfUp q D (S + 1) := by
  unfold HalfUp at h ⊢
  rw [Int.floor_eq_iff] at h ⊢
  have hhalf : q / 2 ^ (S + 1) = q / 2 ^ S / 2 := by
    rw [zpow_add_one₀ (by decide : (2 : ℚ) ≠ 0), div_div]
  rw [hhalf]
  obtain ⟨hlo, hhi⟩ := h
  push_cast at hlo hhi ⊢
  constructor
  · linarith
  · linarith

/-- Digits of `w` bits that round `q`, with all their bits in use unless they are exact. -/
structure Rounds (w : Nat) (q : ℚ) (D : Nat) (S : Int) : Prop where
  halfUp : HalfUp q D S
  full : value D S ≠ q → 2 ^ (w - 1) ≤ D

theorem Rounds.exact (w D : Nat) (S : Int) : Rounds w (value D S) D S := by
  have hparts : Parts (value D S) D 0 1 S := ⟨Nat.one_pos, by simp [value]⟩
  exact ⟨hparts.halfUp, fun hne => absurd rfl hne⟩

theorem Parts.rounds {w : Nat} {q : ℚ} {D r M : Nat} {S : Int} (h : Parts q D r M S)
    (hfull : r ≠ 0 → 2 ^ (w - 1) ≤ D) :
    Rounds w q (D + if M ≤ 2 * r then 1 else 0) S := by
  refine ⟨h.halfUp, ?_⟩
  intro hne
  by_cases hr : r = 0
  · subst hr
    have hM := h.lt
    rw [if_neg (by omega), Nat.add_zero] at hne
    exact absurd h.value_eq hne
  · exact Nat.le_add_right_of_le (hfull hr)

theorem Rounds.halve {w : Nat} {q : ℚ} {S : Int} (hw : 0 < w) (h : Rounds w q (2 ^ w) S) :
    Rounds w q (2 ^ (w - 1)) (S + 1) := by
  have hdouble : 2 ^ w = 2 * 2 ^ (w - 1) := by
    rw [← Nat.pow_succ', Nat.succ_eq_add_one, Nat.sub_add_cancel hw]
  have hhalf := h.halfUp
  rw [hdouble] at hhalf
  exact ⟨hhalf.double, fun _ => Nat.le_refl _⟩

end SmlnjLlvm.Scaled
