import SmlnjLlvm.Library.LowBits
import SmlnjLlvm.Support.ScaledProducts

/-!
# Quotients of scaled numbers

The long division keeps the quotient that is not yet divided as whole units and
a fraction of the divisor, and stops with all bits of the quotient in use or
with nothing left to divide.
-/

namespace SmlnjLlvm.ScaledNumbers

open Support Words Scaled Loop

theorem toNat_getHalf (N : BitVec 64) : (getHalf N).toNat = (N.toNat + 1) / 2 := by
  have hone : (1 : BitVec 64).toNat = 1 := rfl
  rw [getHalf, BitVec.toNat_add, BitVec.toNat_ushiftRight, BitVec.toNat_and, hone,
    Nat.and_one_is_mod, Nat.shiftRight_one]
  omega

theorem getHalf_le_iff (Divisor Remainder : BitVec 64) :
    decide (getHalf Divisor ≤ Remainder) = true ↔ Divisor.toNat ≤ 2 * Remainder.toNat := by
  rw [decide_eq_true_iff, BitVec.le_def, toNat_getHalf]
  omega

theorem toNat_canonical {x : BitVec 64} (hne : x ≠ 0) :
    (x <<< countl_zero x).toNat = x.toNat * 2 ^ countl_zero x ∧
      2 ^ 63 ≤ x.toNat * 2 ^ countl_zero x ∧ x.toNat * 2 ^ countl_zero x < 2 ^ 64 := by
  have hclz := countl_zero_lt hne
  have hge : 2 ^ (64 - 1 - countl_zero x) ≤ x.toNat :=
    BitVec.two_pow_sub_clz_le_toNat_of_ne_zero (by decide) hne
  have hlt : x.toNat < 2 ^ (64 - countl_zero x) := BitVec.toNat_lt_two_pow_sub_clz
  generalize countl_zero x = z at hclz hge hlt ⊢
  have hhigh : x.toNat * 2 ^ z < 2 ^ 64 := by
    calc x.toNat * 2 ^ z < 2 ^ (64 - z) * 2 ^ z := Nat.mul_lt_mul_of_pos_right hlt (Nat.two_pow_pos z)
      _ = 2 ^ 64 := by
        rw [← Nat.pow_add]
        congr 1
        omega
  refine ⟨?_, ?_, hhigh⟩
  · rw [toNat_shl, Nat.mod_eq_of_lt hhigh]
  · calc 2 ^ 63 = 2 ^ (64 - 1 - z) * 2 ^ z := by
          rw [← Nat.pow_add]
          congr 1
          omega
      _ ≤ x.toNat * 2 ^ z := Nat.mul_le_mul_right _ hge

theorem parts_scaled (N M z : Nat) (hM : 0 < M) :
    Parts ((N : ℚ) / M) (N * 2 ^ z / M) (N * 2 ^ z % M) M (-z) := by
  have hparts := Parts.quotient (N * 2 ^ z) M hM (-z)
  have heq : ((N * 2 ^ z : ℕ) : ℚ) / M * 2 ^ (-(z : Int)) = N / M := by
    rw [zpow_neg, zpow_natCast]
    push_cast
    field_simp
  rwa [heq] at hparts

theorem divide32_rounds {Dividend Divisor : BitVec 32} (hDividend : Dividend ≠ 0)
    (hDivisor : Divisor ≠ 0) :
    ∃ r, divide32 Dividend Divisor = some r ∧
      RoundsTo ((Dividend.toNat : ℚ) / Divisor.toNat) r := by
  have hwide (x : BitVec 32) : (x.setWidth 64).toNat = x.toNat := by
    rw [BitVec.toNat_setWidth, Nat.mod_eq_of_lt]
    exact Nat.lt_trans x.isLt (by decide)
  have hne : Dividend.setWidth 64 ≠ 0 := by
    intro hzero
    have hnat := congrArg BitVec.toNat hzero
    exact hDividend (BitVec.eq_of_toNat_eq hnat)
  have hpos : 0 < Divisor.toNat := by
    rw [Nat.pos_iff_ne_zero]
    intro hzero
    exact hDivisor (BitVec.eq_of_toNat_eq hzero)
  obtain ⟨hcanonical, hlo, hhi⟩ := toNat_canonical hne
  have hz := countl_zero_le (Dividend.setWidth 64)
  rw [hwide] at hcanonical hlo hhi
  refine ⟨_, by simp only [divide32, guard, if_pos hDividend, if_pos hDivisor]; rfl, ?_⟩
  generalize countl_zero (Dividend.setWidth 64) = z at hcanonical hlo hhi hz ⊢
  have hparts := parts_scaled Dividend.toNat Divisor.toNat z hpos
  have hquot : (Dividend.setWidth 64 <<< z / Divisor.setWidth 64).toNat =
      Dividend.toNat * 2 ^ z / Divisor.toNat := by
    rw [BitVec.toNat_udiv, hcanonical, hwide]
  have hrem : (Dividend.setWidth 64 <<< z % Divisor.setWidth 64).toNat =
      Dividend.toNat * 2 ^ z % Divisor.toNat := by
    rw [BitVec.toNat_umod, hcanonical, hwide]
  rw [← hquot, ← hrem] at hparts
  have hround := getHalf_le_iff (Divisor.setWidth 64)
    (Dividend.setWidth 64 <<< z % Divisor.setWidth 64)
  rw [int16_eq (by omega) (by omega)]
  by_cases hlarge : (Dividend.setWidth 64 <<< z / Divisor.setWidth 64).toNat > UINT32_MAX
  · rw [if_pos hlarge]
    unfold UINT32_MAX at hlarge
    exact getAdjusted_rounds (Or.inl rfl) hparts (fun _ => ⟨by omega, by decide⟩) (by omega)
      (by omega)
  · have hfull : 2 ^ 31 ≤ (Dividend.setWidth 64 <<< z / Divisor.setWidth 64).toNat := by
      rw [hquot, Nat.le_div_iff_mul_le hpos]
      omega
    rw [if_neg hlarge]
    unfold UINT32_MAX at hlarge
    have hsmall : ((Dividend.setWidth 64 <<< z / Divisor.setWidth 64).setWidth 32).toNat =
        (Dividend.setWidth 64 <<< z / Divisor.setWidth 64).toNat := by
      rw [BitVec.toNat_setWidth, Nat.mod_eq_of_lt (by omega)]
    rw [← hsmall] at hparts hfull
    exact getRounded_rounds (by decide) hparts (fun _ => hfull) hround (by omega) (by omega)

/-! ## 64 bits -/

/-- What holds before each turn for the quotient `q`. -/
structure Dividing (q : ℚ) (Divisor : BitVec 64) (s : LongDivision) : Prop where
  parts : Parts q s.Quotient.toNat s.Dividend.toNat Divisor.toNat s.Shift
  started : s.Quotient = 0 → 2 ^ 63 ≤ s.Dividend.toNat
  shift_le : s.Shift ≤ 0
  le_shift : -200 + (countl_zero s.Quotient : Int) ≤ s.Shift

theorem ushiftRight_63_eq_zero_iff (x : BitVec 64) : x >>> 63 = 0 ↔ x.toNat < 2 ^ 63 := by
  rw [← BitVec.toNat_inj, toNat_shr]
  have hzero : (0 : BitVec 64).toNat = 0 := rfl
  rw [hzero]
  omega

theorem countl_zero_double {x y : BitVec 64} (hy : 2 * x.toNat ≤ y.toNat) (hpos : y ≠ 0) :
    countl_zero y + 1 ≤ countl_zero x := by
  by_cases hzero : x = 0
  · have hy := countl_zero_lt hpos
    rw [hzero, countl_zero_zero]
    exact hy
  · have hyclz := countl_zero_lt hpos
    rw [le_countl_zero_iff (by omega)]
    have hbound : y.toNat < 2 ^ (64 - countl_zero y) := BitVec.toNat_lt_two_pow_sub_clz
    have hsucc : 64 - countl_zero y = 64 - (countl_zero y + 1) + 1 := by omega
    rw [hsucc, Nat.pow_succ] at hbound
    omega

theorem divideTurn_spec {q : ℚ} {Divisor : BitVec 64} {s : LongDivision}
    (h : Dividing q Divisor s) :
    ∃ t, divideTurn Divisor s = some t ∧
      t.Sat (fun s' => Dividing q Divisor s' ∧ countl_zero s'.Quotient < countl_zero s.Quotient)
        (fun s' => Dividing q Divisor s' ∧
          (s'.Dividend.toNat ≠ 0 → 2 ^ 63 ≤ s'.Quotient.toNat)) := by
  unfold divideTurn
  by_cases hmore : s.Quotient >>> 63 = 0 ∧ s.Dividend ≠ 0
  · obtain ⟨hquot, hdividend⟩ := hmore
    rw [ushiftRight_63_eq_zero_iff] at hquot
    rw [if_pos ⟨(ushiftRight_63_eq_zero_iff _).mpr hquot, hdividend⟩]
    have hlt := h.parts.lt
    have hdouble := h.parts.double
    have hshifted : (s.Dividend <<< 1).toNat = 2 * s.Dividend.toNat % 2 ^ 64 :=
      toNat_shiftLeft_one _
    have hQ : (s.Quotient <<< 1).toNat = 2 * s.Quotient.toNat := by
      rw [toNat_shiftLeft_one, Nat.mod_eq_of_lt (by omega)]
    have htest : ((s.Dividend >>> 63 != 0) = true ∨ Divisor ≤ s.Dividend <<< 1) ↔
        Divisor.toNat ≤ 2 * s.Dividend.toNat := by
      rw [bne_iff_ne, Ne, ushiftRight_63_eq_zero_iff, BitVec.le_def, hshifted]
      omega
    have hle := h.le_shift
    have hshift := h.shift_le
    by_cases hbit : Divisor.toNat ≤ 2 * s.Dividend.toNat
    · have hQ' : (s.Quotient <<< 1 ||| 1).toNat = 2 * s.Quotient.toNat + 1 := by
        rw [toNat_shiftLeft_one_or (by decide) (by decide), Nat.mod_eq_of_lt]
        · rfl
        · have hone : (1 : BitVec 64).toNat = 1 := rfl
          omega
      have hR' : (s.Dividend <<< 1 - Divisor).toNat =
          2 * s.Dividend.toNat - Divisor.toNat := by
        rw [BitVec.toNat_sub, hshifted]
        omega
      have hpos : s.Quotient <<< 1 ||| 1 ≠ 0 := by
        intro hzero
        rw [hzero] at hQ'
        have hnat : (0 : BitVec 64).toNat = 0 := rfl
        omega
      have hclz := countl_zero_double (x := s.Quotient) (y := s.Quotient <<< 1 ||| 1)
        (by omega) hpos
      rw [if_pos hbit, if_pos hbit, ← hQ', ← hR'] at hdouble
      refine ⟨_, if_pos (htest.mpr hbit), ?_, hclz⟩
      exact ⟨hdouble, fun hzero => absurd hzero hpos, by simp only; omega, by simp only; omega⟩
    · have hR' : (s.Dividend <<< 1).toNat = 2 * s.Dividend.toNat := by
        rw [hshifted]
        omega
      have hne : s.Quotient ≠ 0 := by
        intro hzero
        have hstart := h.started hzero
        omega
      have hnat : s.Quotient.toNat ≠ 0 := fun hzero => hne (BitVec.eq_of_toNat_eq hzero)
      have hpos : s.Quotient <<< 1 ≠ 0 := by
        intro hzero
        rw [hzero] at hQ
        have hnat' : (0 : BitVec 64).toNat = 0 := rfl
        omega
      have hclz := countl_zero_double (x := s.Quotient) (y := s.Quotient <<< 1) (by omega)
        hpos
      rw [if_neg hbit, if_neg hbit, Nat.add_zero, Nat.sub_zero, ← hQ, ← hR'] at hdouble
      refine ⟨_, if_neg (mt htest.mp hbit), ?_, hclz⟩
      exact ⟨hdouble, fun hzero => absurd hzero hpos, by simp only; omega, by simp only; omega⟩
  · refine ⟨_, if_neg hmore, h, ?_⟩
    intro hdividend
    by_contra hquot
    apply hmore
    refine ⟨(ushiftRight_63_eq_zero_iff _).mpr (Nat.not_le.mp hquot), ?_⟩
    intro hzero
    rw [hzero] at hdividend
    exact hdividend rfl

theorem toNat_oddPart {x : BitVec 64} (hne : x ≠ 0) :
    x.toNat = (x >>> countr_zero x).toNat * 2 ^ countr_zero x := by
  have hdvd : 2 ^ countr_zero x ∣ x.toNat :=
    LowBits.dvd_iff_bits.mpr (countr_zero_spec hne).2
  rw [toNat_shr, Nat.div_mul_cancel hdvd]

theorem dividing_start {Dividend Divisor : BitVec 64} {z : Nat} (hz : z < 64)
    (hDividend : Dividend ≠ 0) (hpos : 0 < Divisor.toNat) :
    Dividing ((Dividend.toNat : ℚ) / (Divisor.toNat * 2 ^ z : ℕ)) Divisor
      ⟨Dividend <<< countl_zero Dividend / Divisor, Dividend <<< countl_zero Dividend % Divisor,
        -z - countl_zero Dividend⟩ := by
  obtain ⟨hcanonical, hlo, hhi⟩ := toNat_canonical hDividend
  have hclz := countl_zero_lt hDividend
  have hle := countl_zero_le (Dividend <<< countl_zero Dividend / Divisor)
  refine ⟨?_, ?_, by simp only; omega, by simp only; omega⟩
  · have hparts := parts_scaled Dividend.toNat Divisor.toNat (countl_zero Dividend) hpos
    simp only [BitVec.toNat_udiv, BitVec.toNat_umod, hcanonical]
    refine ⟨hparts.lt, ?_⟩
    have hscale : (Dividend.toNat : ℚ) / (Divisor.toNat * 2 ^ z : ℕ) =
        Dividend.toNat / Divisor.toNat * 2 ^ (-(z : Int)) := by
      rw [zpow_neg, zpow_natCast]
      push_cast
      rw [← div_div, div_eq_mul_inv (_ / _)]
    rw [hscale, hparts.eq, mul_assoc, ← zpow_add₀ (by decide : (2 : ℚ) ≠ 0)]
    congr 2
    omega
  · intro hzero
    simp only at hzero ⊢
    have hquot : Dividend.toNat * 2 ^ countl_zero Dividend / Divisor.toNat = 0 := by
      rw [← hcanonical, ← BitVec.toNat_udiv, hzero]
      rfl
    have hsplit := Nat.div_add_mod (Dividend.toNat * 2 ^ countl_zero Dividend) Divisor.toNat
    rw [hquot, Nat.mul_zero, Nat.zero_add] at hsplit
    rw [BitVec.toNat_umod, hcanonical, hsplit]
    exact hlo

theorem divide64_rounds {Dividend Divisor : BitVec 64} (hDividend : Dividend ≠ 0)
    (hDivisor : Divisor ≠ 0) :
    ∃ r, (∀ turns, 64 < turns → divide64 turns Dividend Divisor = some r) ∧
      RoundsTo ((Dividend.toNat : ℚ) / Divisor.toNat) r := by
  have hodd := toNat_oddPart hDivisor
  have hctz := countr_zero_lt hDivisor
  have hpos : 0 < Divisor.toNat := by
    rw [Nat.pos_iff_ne_zero]
    intro hzero
    exact hDivisor (BitVec.eq_of_toNat_eq hzero)
  rw [hodd] at hpos ⊢
  simp only [divide64, guard, if_pos hDividend, if_pos hDivisor]
  generalize Divisor >>> countr_zero Divisor = odd at hpos ⊢
  generalize countr_zero Divisor = z at hctz hpos ⊢
  have hoddPos : 0 < odd.toNat := Nat.pos_of_mul_pos_right hpos
  by_cases hone : odd = 1
  · subst hone
    refine ⟨(Dividend, int16 (-z)), fun _ _ => by rw [if_pos rfl]; rfl, ?_⟩
    have hvalue : (Dividend.toNat : ℚ) / ((1 : BitVec 64).toNat * 2 ^ z : ℕ) =
        value Dividend.toNat (-z) := by
      have hunit : (1 : BitVec 64).toNat = 1 := rfl
      rw [value, zpow_neg, zpow_natCast, hunit, Nat.one_mul, Nat.cast_pow, Nat.cast_ofNat,
        div_eq_mul_inv]
    rw [int16_eq (by omega) (by omega), hvalue]
    exact Rounds.exact 64 _ _
  · obtain ⟨s, hrun, hdividing, hfull⟩ := loop_rule (fun _ => divideTurn odd) 0
      (fun s => countl_zero s.Quotient) (fun s hs => by
        obtain ⟨t, hrun, hsat⟩ := divideTurn_spec hs
        exact ⟨t, fun _ _ => hrun, hsat⟩) (dividing_start hctz hDividend hoddPos)
    have hle := countl_zero_le (Dividend <<< countl_zero Dividend / odd)
    refine ⟨getRounded s.Quotient (int16 s.Shift) (decide (getHalf odd ≤ s.Dividend)), ?_, ?_⟩
    · intro turns hturns
      have hs := hrun 1 Nat.one_pos turns (Nat.lt_of_le_of_lt hle hturns)
      rw [if_neg hone]
      simp only [hs]
      rfl
    · have hlo := hdividing.le_shift
      have hhi := hdividing.shift_le
      rw [int16_eq (by omega) (by omega)]
      exact getRounded_rounds (by decide) hdividing.parts hfull (getHalf_le_iff odd s.Dividend)
        (by omega) (by omega)

theorem getQuotient_rounds {w : Nat} (hw : w = 32 ∨ w = 64) (Dividend : BitVec w)
    {Divisor : BitVec w} (hDivisor : Divisor ≠ 0) :
    ∃ r, (∀ turns, 64 < turns → getQuotient turns Dividend Divisor = some r) ∧
      RoundsTo ((Dividend.toNat : ℚ) / Divisor.toNat) r := by
  unfold getQuotient
  by_cases hDividend : Dividend = 0
  · subst hDividend
    refine ⟨(0, 0), fun turns _ => by rw [if_pos rfl], ?_⟩
    have hvalue : ((0 : BitVec w).toNat : ℚ) / Divisor.toNat = value (0 : BitVec w).toNat 0 := by
      simp [value]
    rw [hvalue]
    exact Rounds.exact w _ _
  · simp only [if_neg hDividend, if_neg hDivisor]
    rcases hw with rfl | rfl
    · obtain ⟨r, hrun, hrounds⟩ := divide32_rounds hDividend hDivisor
      refine ⟨r, fun _ _ => ?_, hrounds⟩
      simp [hrun]
    · obtain ⟨r, hrun, hrounds⟩ := divide64_rounds hDividend hDivisor
      refine ⟨r, fun turns hturns => ?_, hrounds⟩
      simp [hrun turns hturns]

end SmlnjLlvm.ScaledNumbers
