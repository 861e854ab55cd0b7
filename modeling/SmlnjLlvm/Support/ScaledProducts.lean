import SmlnjLlvm.Library.ScaledValue
import SmlnjLlvm.Support.ScaledNumber

/-!
# Products and quotients of scaled numbers

Products and quotients round the exact result half up, and use all bits of the
digits unless they are exact.
-/

namespace SmlnjLlvm.ScaledNumbers

open Support Words Scaled Loop

theorem int16_eq {x : Int} (hlo : -32768 ≤ x) (hhi : x < 32768) : int16 x = x := by
  apply Int.bmod_eq_of_le
  · omega
  · omega

theorem and_one_shiftLeft_ne_zero {n : Nat} (x : BitVec 64) (hn : n < 64) :
    x &&& (1 : BitVec 64) <<< n ≠ 0 ↔ x.toNat.testBit n = true := by
  have hmask : x &&& (1 : BitVec 64) <<< n = if x.getLsbD n then BitVec.twoPow 64 n else 0#64 :=
    BitVec.and_twoPow x n
  rw [hmask, BitVec.testBit_toNat]
  by_cases hbit : x.getLsbD n = true
  · rw [if_pos hbit]
    refine iff_of_true ?_ hbit
    intro hzero
    have htop := congrArg (fun v => v.getLsbD n) hzero
    simp [hn] at htop
  · rw [if_neg hbit]
    exact iff_of_false (fun h => h rfl) hbit

/-- The pair `r` rounds `q`. -/
abbrev RoundsTo {w : Nat} (q : ℚ) (r : Scaled w) : Prop := Rounds w q r.1.toNat r.2

theorem getRounded_rounds {w : Nat} (hw : 0 < w) {q : ℚ} {Digits : BitVec w} {r M : Nat}
    {Scale : Int} {ShouldRound : Bool} (h : Parts q Digits.toNat r M Scale)
    (hfull : r ≠ 0 → 2 ^ (w - 1) ≤ Digits.toNat) (hround : ShouldRound = true ↔ M ≤ 2 * r)
    (hlo : -32768 ≤ Scale) (hhi : Scale < 32767) :
    RoundsTo q (getRounded Digits Scale ShouldRound) := by
  have hrounds := h.rounds hfull
  unfold getRounded
  by_cases hhalf : M ≤ 2 * r
  · rw [if_pos hhalf] at hrounds
    rw [if_pos (hround.mpr hhalf)]
    have hsum := toNat_add_one hw Digits
    have hlt := Digits.isLt
    by_cases hzero : Digits + 1 = 0
    · have hmax : Digits.toNat + 1 = 2 ^ w := by
        rw [hzero] at hsum
        have hmod : (Digits.toNat + 1) % 2 ^ w = 0 := by
          rw [← hsum]
          exact BitVec.toNat_zero
        have hdvd := Nat.dvd_of_mod_eq_zero hmod
        exact Nat.le_antisymm hlt (Nat.le_of_dvd (Nat.succ_pos _) hdvd)
      have htop : ((1 : BitVec w) <<< (w - 1)).toNat = 2 ^ (w - 1) := by
        have hpow : 2 ^ (w - 1) < 2 ^ w := Nat.pow_lt_pow_right (by decide) (by omega)
        rw [BitVec.toNat_shiftLeft, toNat_one hw, Nat.one_shiftLeft, Nat.mod_eq_of_lt hpow]
      rw [hmax] at hrounds
      rw [if_pos hzero, RoundsTo, htop, int16_eq (by omega) (by omega)]
      exact hrounds.halve hw
    · have hne : Digits.toNat + 1 ≠ 2 ^ w := by
        intro hmax
        rw [hmax, Nat.mod_self] at hsum
        exact hzero (BitVec.eq_of_toNat_eq (hsum.trans BitVec.toNat_zero.symm))
      rw [Nat.mod_eq_of_lt (by omega)] at hsum
      rw [if_neg hzero, RoundsTo, hsum]
      exact hrounds
  · rw [if_neg hhalf, Nat.add_zero] at hrounds
    rw [if_neg (mt hround.mp hhalf)]
    exact hrounds

theorem bit_width_spec {Value : BitVec 64} (hne : Value ≠ 0) :
    2 ^ (bit_width Value - 1) ≤ Value.toNat ∧ Value.toNat < 2 ^ bit_width Value := by
  have hge : 2 ^ (64 - 1 - countl_zero Value) ≤ Value.toNat :=
    BitVec.two_pow_sub_clz_le_toNat_of_ne_zero (by decide) hne
  have hlt : Value.toNat < 2 ^ (64 - countl_zero Value) := BitVec.toNat_lt_two_pow_sub_clz
  unfold bit_width
  rw [Nat.sub_right_comm]
  exact ⟨hge, hlt⟩

theorem shifted_bounds {w : Nat} (Value : BitVec 64) (hw : 0 < w) (hwide : 2 ^ w ≤ Value.toNat) :
    w < bit_width Value ∧ 2 ^ (w - 1) ≤ Value.toNat / 2 ^ (bit_width Value - w) ∧
      Value.toNat / 2 ^ (bit_width Value - w) < 2 ^ w := by
  have hne : Value ≠ 0 := by
    rintro rfl
    exact absurd hwide (Nat.not_le.mpr (Nat.two_pow_pos w))
  obtain ⟨hge, hlt⟩ := bit_width_spec hne
  have hwidth : w < bit_width Value :=
    (Nat.pow_lt_pow_iff_right (by decide : 1 < 2)).mp (Nat.lt_of_le_of_lt hwide hlt)
  have hpow := Nat.two_pow_pos (bit_width Value - w)
  refine ⟨hwidth, ?_, ?_⟩
  · rw [Nat.le_div_iff_mul_le hpow, ← Nat.pow_add]
    refine Nat.le_trans (Nat.pow_le_pow_right (by decide) ?_) hge
    omega
  · rw [Nat.div_lt_iff_lt_mul hpow, ← Nat.pow_add]
    refine Nat.lt_of_lt_of_le hlt (Nat.pow_le_pow_right (by decide) ?_)
    omega

theorem getAdjusted_rounds {w : Nat} (hw : w = 32 ∨ w = 64) {q : ℚ} {Digits : BitVec 64}
    {r M : Nat} {Scale : Int} (h : Parts q Digits.toNat r M Scale)
    (hexact : r ≠ 0 → 2 ^ w ≤ Digits.toNat ∧ w ≠ 64)
    (hlo : -32768 ≤ Scale) (hhi : Scale < 32000) :
    RoundsTo q (getAdjusted w Digits Scale) := by
  have hpos : 0 < w := by omega
  have hDigits := Digits.isLt
  unfold getAdjusted
  by_cases hfits : w = 64 ∨ Digits.toNat ≤ 2 ^ w - 1
  · have hlt : Digits.toNat < 2 ^ w := by
      have hpow := Nat.two_pow_pos w
      rcases hfits with rfl | hle
      · exact hDigits
      · omega
    have hzero : r = 0 := by
      by_contra hr
      omega
    subst hzero
    rw [if_pos hfits, RoundsTo, BitVec.toNat_setWidth, Nat.mod_eq_of_lt hlt, ← h.value_eq]
    exact Rounds.exact w _ _
  · have hw32 : w = 32 := by omega
    obtain ⟨hwidth, hge, hlt⟩ := shifted_bounds Digits hpos (by omega)
    have hle : bit_width Digits ≤ 64 := Nat.sub_le _ _
    rw [if_neg hfits]
    obtain ⟨n, hn⟩ := Nat.exists_eq_add_of_lt hwidth
    have hshift : bit_width Digits - w = n + 1 := by omega
    simp only [hshift] at hge hlt ⊢
    have hdigits : ((Digits >>> (n + 1)).setWidth w).toNat = Digits.toNat / 2 ^ (n + 1) := by
      rw [BitVec.toNat_setWidth, toNat_shr,
        Nat.mod_eq_of_lt hlt]
    have hparts := h.shift (n + 1)
    rw [← hdigits] at hparts hge
    rw [int16_eq (by omega) (by omega)]
    refine getRounded_rounds hpos hparts (fun _ => hge) ?_ (by omega) (by omega)
    rw [h.half_shift n, bne_iff_ne, Nat.add_sub_cancel]
    exact and_one_shiftLeft_ne_zero Digits (by omega)

/-! ## Products -/

theorem toNat_getU (N : BitVec 64) : (getU N).toNat = N.toNat / 2 ^ 32 := by
  rw [getU, toNat_shr]

theorem toNat_getL (N : BitVec 64) : (getL N).toNat = N.toNat % 2 ^ 32 := by
  have hmask : (BitVec.ofNat 64 UINT32_MAX).toNat = 2 ^ 32 - 1 := rfl
  rw [getL, BitVec.toNat_and, hmask, Nat.and_two_pow_sub_one_eq_mod]

/-- The number in two digits. -/
def double (d : BitVec 64 × BitVec 64) : Nat := d.1.toNat * 2 ^ 64 + d.2.toNat

theorem double_addWithCarry {Upper Lower N : BitVec 64}
    (hfits : double (Upper, Lower) + N.toNat * 2 ^ 32 < 2 ^ 128) :
    double (addWithCarry Upper Lower N) = double (Upper, Lower) + N.toNat * 2 ^ 32 := by
  have hshift : (getL N <<< 32).toNat = N.toNat % 2 ^ 32 * 2 ^ 32 := by
    rw [BitVec.toNat_shiftLeft, toNat_getL, Nat.shiftLeft_eq, Nat.mod_eq_of_lt]
    omega
  have hNew : (Lower + getL N <<< 32).toNat =
      (Lower.toNat + N.toNat % 2 ^ 32 * 2 ^ 32) % 2 ^ 64 := by
    rw [BitVec.toNat_add, hshift]
  have hU := toNat_getU N
  unfold double at hfits ⊢
  simp only [addWithCarry, BitVec.lt_def] at hfits ⊢
  by_cases hcarry : (Lower + getL N <<< 32).toNat < Lower.toNat
  · rw [if_pos hcarry, BitVec.toNat_add, BitVec.toNat_add, hU, hNew]
    have hone : (1 : BitVec 64).toNat = 1 := rfl
    rw [hone]
    omega
  · rw [if_neg hcarry, BitVec.toNat_add, BitVec.toNat_add, hU, hNew]
    have hzero : (0 : BitVec 64).toNat = 0 := rfl
    rw [hzero]
    omega

theorem toNat_mul_of_halves {a b : BitVec 64} (ha : a.toNat < 2 ^ 32) (hb : b.toNat < 2 ^ 32) :
    (a * b).toNat = a.toNat * b.toNat := by
  rw [BitVec.toNat_mul, Nat.mod_eq_of_lt]
  calc a.toNat * b.toNat < 2 ^ 32 * 2 ^ 32 := Nat.mul_lt_mul'' ha hb
    _ = 2 ^ 64 := by decide

theorem double_crossProducts (LHS RHS : BitVec 64) :
    let first := addWithCarry (getU LHS * getU RHS) (getL LHS * getL RHS) (getU LHS * getL RHS)
    double (addWithCarry first.1 first.2 (getL LHS * getU RHS)) = LHS.toNat * RHS.toNat := by
  have hUL : (getU LHS).toNat < 2 ^ 32 := by
    rw [toNat_getU]
    omega
  have hUR : (getU RHS).toNat < 2 ^ 32 := by
    rw [toNat_getU]
    omega
  have hLL : (getL LHS).toNat < 2 ^ 32 := by
    rw [toNat_getL]
    exact Nat.mod_lt _ (Nat.two_pow_pos 32)
  have hLR : (getL RHS).toNat < 2 ^ 32 := by
    rw [toNat_getL]
    exact Nat.mod_lt _ (Nat.two_pow_pos 32)
  have hL : LHS.toNat = (getU LHS).toNat * 2 ^ 32 + (getL LHS).toNat := by
    rw [toNat_getU, toNat_getL]
    omega
  have hR : RHS.toNat = (getU RHS).toNat * 2 ^ 32 + (getL RHS).toNat := by
    rw [toNat_getU, toNat_getL]
    omega
  have hproduct : LHS.toNat * RHS.toNat < 2 ^ 128 := by
    calc LHS.toNat * RHS.toNat < 2 ^ 64 * 2 ^ 64 := Nat.mul_lt_mul'' LHS.isLt RHS.isLt
      _ = 2 ^ 128 := by decide
  have hsum : LHS.toNat * RHS.toNat = double (getU LHS * getU RHS, getL LHS * getL RHS) +
      (getU LHS * getL RHS).toNat * 2 ^ 32 + (getL LHS * getU RHS).toNat * 2 ^ 32 := by
    unfold double
    rw [toNat_mul_of_halves hUL hUR, toNat_mul_of_halves hLL hLR, toNat_mul_of_halves hUL hLR,
      toNat_mul_of_halves hLL hUR, hL, hR]
    ring
  intro first
  have hfirst : double first = double (getU LHS * getU RHS, getL LHS * getL RHS) +
      (getU LHS * getL RHS).toNat * 2 ^ 32 := double_addWithCarry (by omega)
  have hlast : double (addWithCarry first.1 first.2 (getL LHS * getU RHS)) =
      double first + (getL LHS * getU RHS).toNat * 2 ^ 32 :=
    double_addWithCarry (show double first + _ < _ by omega)
  rw [hlast, hfirst]
  exact hsum.symm

theorem toNat_leading {Upper : BitVec 64} (Lower : BitVec 64) (hne : Upper ≠ 0) :
    (if countl_zero Upper ≠ 0 then
      Upper <<< countl_zero Upper ||| Lower >>> (64 - countl_zero Upper) else Upper).toNat =
        double (Upper, Lower) / 2 ^ (64 - countl_zero Upper) := by
  have hlt : Upper.toNat < 2 ^ (64 - countl_zero Upper) := BitVec.toNat_lt_two_pow_sub_clz
  have hclz := countl_zero_lt hne
  have hLower := Lower.isLt
  generalize countl_zero Upper = z at hlt hclz ⊢
  have hsplit : 2 ^ 64 = 2 ^ z * 2 ^ (64 - z) := by
    rw [← Nat.pow_add]
    congr 1
    omega
  have hdiv : double (Upper, Lower) / 2 ^ (64 - z) =
      Upper.toNat * 2 ^ z + Lower.toNat / 2 ^ (64 - z) := by
    unfold double
    rw [hsplit, ← Nat.mul_assoc, Nat.mul_comm _ (2 ^ (64 - z)),
      Nat.mul_add_div (Nat.two_pow_pos _)]
  rw [hdiv]
  by_cases hz : z = 0
  · subst hz
    rw [if_neg (fun h => h rfl), Nat.div_eq_of_lt hLower]
    omega
  · have hshift : (Upper <<< z).toNat = Upper.toNat * 2 ^ z := by
      rw [toNat_shl, Nat.mod_eq_of_lt]
      calc Upper.toNat * 2 ^ z < 2 ^ (64 - z) * 2 ^ z :=
            Nat.mul_lt_mul_of_pos_right hlt (Nat.two_pow_pos z)
        _ = 2 ^ 64 := by rw [hsplit, Nat.mul_comm]
    have hlow : (Lower >>> (64 - z)).toNat < 2 ^ z := by
      rw [toNat_shr,
        Nat.div_lt_iff_lt_mul (Nat.two_pow_pos _), ← hsplit]
      exact hLower
    rw [if_pos hz, BitVec.toNat_or, hshift, Nat.mul_comm Upper.toNat,
      ← Nat.two_pow_add_eq_or_of_lt hlow, toNat_shr]

theorem multiply64_rounds (LHS RHS : BitVec 64) :
    RoundsTo ((LHS.toNat : ℚ) * RHS.toNat) (multiply64 LHS RHS) := by
  have hdouble := double_crossProducts LHS RHS
  unfold multiply64
  simp only at hdouble ⊢
  generalize addWithCarry _ _ (getL LHS * getU RHS) = sum at hdouble ⊢
  have hparts : Parts ((LHS.toNat : ℚ) * RHS.toNat) (double sum) 0 1 0 := by
    rw [hdouble, ← Nat.cast_mul]
    exact Parts.natCast _
  obtain ⟨Upper, Lower⟩ := sum
  by_cases hzero : Upper = 0
  · subst hzero
    rw [if_pos rfl]
    have hlow : double ((0 : BitVec 64), Lower) = Lower.toNat := by
      simp [double]
    rw [hlow] at hparts
    rw [RoundsTo, ← hparts.value_eq]
    exact Rounds.exact 64 _ _
  · have hleading := toNat_leading Lower hzero
    have hclz := countl_zero_lt hzero
    have hge : 2 ^ (64 - 1 - countl_zero Upper) ≤ Upper.toNat :=
      BitVec.two_pow_sub_clz_le_toNat_of_ne_zero (by decide) hzero
    rw [if_neg hzero]
    simp only at hleading ⊢
    generalize countl_zero Upper = z at hleading hclz hge ⊢
    obtain ⟨n, hn⟩ := Nat.exists_eq_add_of_lt hclz
    have hshift : 64 - z = n + 1 := by omega
    rw [hshift] at hleading ⊢
    have hshifted := hparts.shift (n + 1)
    rw [zero_add, ← hleading] at hshifted
    rw [int16_eq (by omega) (by omega)]
    refine getRounded_rounds (by decide) hshifted ?_ ?_ (by omega) (by omega)
    · intro _
      have hupper : 2 ^ n ≤ Upper.toNat := by
        have hpred : 64 - 1 - z = n := by omega
        rwa [hpred] at hge
      rw [hleading, Nat.le_div_iff_mul_le (Nat.two_pow_pos _), ← Nat.pow_add]
      calc 2 ^ (64 - 1 + (n + 1)) = 2 ^ n * 2 ^ 64 := by
            rw [← Nat.pow_add]
            congr 1
            omega
        _ ≤ Upper.toNat * 2 ^ 64 := Nat.mul_le_mul_right _ hupper
        _ ≤ double (Upper, Lower) := Nat.le_add_right _ _
    · have hbit : (double (Upper, Lower)).testBit n = Lower.toNat.testBit n := by
        unfold double
        rw [Nat.mul_comm, Nat.testBit_two_pow_mul_add _ Lower.isLt, if_pos (by omega)]
      have hmask := and_one_shiftLeft_ne_zero (n := n) Lower (by omega)
      rw [hparts.half_shift n, hbit, Bool.and_eq_true, bne_iff_ne, bne_iff_ne, Nat.add_sub_cancel,
        hmask]
      exact and_iff_right (Nat.succ_ne_zero n)

theorem getProduct_rounds {w : Nat} (hw : w = 32 ∨ w = 64) (LHS RHS : BitVec w) :
    RoundsTo ((LHS.toNat : ℚ) * RHS.toNat) (getProduct LHS RHS) := by
  have hwide (x : BitVec w) : (x.setWidth 64).toNat = x.toNat := by
    rw [BitVec.toNat_setWidth, Nat.mod_eq_of_lt]
    exact Nat.lt_of_lt_of_le x.isLt (Nat.pow_le_pow_right (by decide) (by omega))
  unfold getProduct
  by_cases hsmall : w ≤ 32 ∨ (LHS.toNat ≤ UINT32_MAX ∧ RHS.toNat ≤ UINT32_MAX)
  · have hbounds : LHS.toNat < 2 ^ 32 ∧ RHS.toNat < 2 ^ 32 := by
      rcases hsmall with hle | ⟨hle, hle'⟩
      · have hpow : 2 ^ w ≤ 2 ^ 32 := Nat.pow_le_pow_right (by decide) hle
        omega
      · unfold UINT32_MAX at hle hle'
        omega
    have hmul := toNat_mul_of_halves (a := LHS.setWidth 64) (b := RHS.setWidth 64)
      (by rw [hwide]; exact hbounds.1) (by rw [hwide]; exact hbounds.2)
    rw [if_pos hsmall]
    refine getAdjusted_rounds hw (r := 0) (M := 1) ?_ (fun hne => absurd rfl hne) (by decide)
      (by decide)
    rw [hmul, hwide, hwide, ← Nat.cast_mul]
    exact Parts.natCast _
  · obtain rfl : w = 64 := by omega
    rw [if_neg hsmall]
    have hrounds := multiply64_rounds LHS RHS
    simpa only [BitVec.setWidth_eq, Prod.mk.eta] using hrounds

end SmlnjLlvm.ScaledNumbers
