import SmlnjLlvm.Support.ScaledQuotients

/-!
# Logarithms, comparison, sums and differences of scaled numbers

Sums and differences first bring both numbers to one scale. Low bits are
dropped there only from the number that is then the smaller one.
-/

namespace SmlnjLlvm.ScaledNumbers

open Support Words Scaled

variable {w : Nat}

theorem setWidth_64_ne_zero (hw : w ≤ 64) {x : BitVec w} (hne : x ≠ 0) : x.setWidth 64 ≠ 0 := by
  intro hzero
  apply hne
  apply BitVec.eq_of_toNat_eq
  rw [← BitVec.toNat_setWidth_of_le hw, hzero]
  rfl

variable {D n : Nat} {Digits : BitVec w} {S : Int} {l r : ℚ} {t : Operands w}

theorem exists_lg (hw : w ≤ 64) (hne : Digits ≠ 0) (Scale : Int) :
    ∃ n : Nat, n < 64 ∧ 2 ^ n ≤ Digits.toNat ∧ Digits.toNat < 2 ^ (n + 1) ∧
      getLgFloor Digits Scale = some (Scale + n) ∧
      getLgCeiling Digits Scale = some (Scale + n + if Digits.toNat = 2 ^ n then 0 else 1) := by
  have hwide := setWidth_64_ne_zero hw hne
  have hclz := countl_zero_lt hwide
  have hge : 2 ^ (64 - 1 - countl_zero (Digits.setWidth 64)) ≤ (Digits.setWidth 64).toNat :=
    BitVec.two_pow_sub_clz_le_toNat_of_ne_zero (by decide) hwide
  have hlt : (Digits.setWidth 64).toNat < 2 ^ (64 - countl_zero (Digits.setWidth 64)) :=
    BitVec.toNat_lt_two_pow_sub_clz
  rw [BitVec.toNat_setWidth_of_le hw] at hge hlt
  unfold getLgFloor getLgCeiling getLgImpl Log2_64
  generalize countl_zero (Digits.setWidth 64) = z at hclz hge hlt
  obtain ⟨n, hn⟩ : ∃ n, n = 63 - z := ⟨_, rfl⟩
  have hpred : 64 - 1 - z = n := by omega
  have hsucc : 64 - z = n + 1 := by omega
  rw [hpred] at hge
  rw [hsucc] at hlt
  rw [← hn, if_neg hne]
  have hpow : 2 ^ n < 2 ^ 64 := Nat.pow_lt_pow_right (by decide) (by omega)
  have hmask : Digits.setWidth 64 = (1 : BitVec 64) <<< n ↔ Digits.toNat = 2 ^ n := by
    have hone : (1 : BitVec 64).toNat = 1 := rfl
    rw [← BitVec.toNat_inj, BitVec.toNat_setWidth_of_le hw, BitVec.toNat_shiftLeft, hone, Nat.one_shiftLeft,
      Nat.mod_eq_of_lt hpow]
  refine ⟨n, by omega, hge, hlt, ?_⟩
  by_cases hexact : Digits.toNat = 2 ^ n
  · rw [if_pos (hmask.mpr hexact), if_pos hexact]
    simp
  · have hpos : 1 ≤ n := by
      rw [Nat.one_le_iff_ne_zero]
      rintro rfl
      omega
    rw [if_neg (mt hmask.mp hexact), if_neg hexact]
    by_cases hbit : Digits.setWidth 64 &&& (1 : BitVec 64) <<< (n - 1) ≠ 0
    · simp only [hpos, guard, if_pos hbit, if_true]
      simp
    · simp only [hpos, guard, if_neg hbit, if_true]
      simp

theorem two_zpow_le_value (h : 2 ^ n ≤ D) (S : Int) : 2 ^ (S + n) ≤ value D S := by
  have hcast : (2 : ℚ) ^ n ≤ D := by exact_mod_cast h
  rw [value, zpow_add₀ (by decide : (2 : ℚ) ≠ 0), zpow_natCast, mul_comm]
  exact mul_le_mul_of_nonneg_right hcast (two_zpow_pos S).le

theorem value_lt_two_zpow (h : D < 2 ^ n) (S : Int) : value D S < 2 ^ (S + n) := by
  have hcast : (D : ℚ) < 2 ^ n := by exact_mod_cast h
  rw [value, zpow_add₀ (by decide : (2 : ℚ) ≠ 0), zpow_natCast, mul_comm]
  exact mul_lt_mul_of_pos_left hcast (two_zpow_pos S)

theorem value_two_pow (n : Nat) (S : Int) : value (2 ^ n) S = 2 ^ (S + n) := by
  rw [value, zpow_add₀ (by decide : (2 : ℚ) ≠ 0), zpow_natCast, mul_comm]
  push_cast
  rfl

theorem getLgFloor_eq (hw : w ≤ 64) (hne : Digits ≠ 0) (Scale : Int) :
    getLgFloor Digits Scale = some (Int.log 2 (value Digits.toNat Scale)) := by
  obtain ⟨n, _, hge, hlt, hfloor, _⟩ := exists_lg hw hne Scale
  rw [hfloor, log_eq (two_zpow_le_value hge Scale)]
  rw [add_assoc]
  exact_mod_cast value_lt_two_zpow hlt Scale

theorem getLgCeiling_eq (hw : w ≤ 64) (hne : Digits ≠ 0) (Scale : Int) :
    getLgCeiling Digits Scale = some (Int.clog 2 (value Digits.toNat Scale)) := by
  obtain ⟨n, _, hge, hlt, _, hceiling⟩ := exists_lg hw hne Scale
  rw [hceiling]
  by_cases hexact : Digits.toNat = 2 ^ n
  · rw [if_pos hexact, hexact, value_two_pow, add_zero]
    rw [clog_eq _ (le_refl _)]
    exact zpow_lt_zpow_right₀ (by decide) (by omega)
  · rw [if_neg hexact, clog_eq]
    · rw [add_sub_cancel_right, ← value_two_pow, value_lt_iff]
      omega
    · rw [add_assoc]
      exact_mod_cast (value_lt_two_zpow hlt Scale).le

theorem order_value (a b : Nat) (S : Int) :
    order (value a S) (value b S) = if a < b then -1 else if b < a then 1 else 0 := by
  rw [order]
  simp only [value_lt_iff]

theorem compareImpl_eq (L R : BitVec 64) (hn : n < 64) (S : Int) :
    compareImpl L R n = some (order (value L.toNat S) (value R.toNat (S + n))) := by
  have hshift := value_shift R.toNat n (S + n)
  have hsplit := Nat.div_add_mod L.toNat (2 ^ n)
  have hback : (L >>> n <<< n).toNat = 2 ^ n * (L.toNat / 2 ^ n) := by
    rw [BitVec.toNat_shiftLeft, toNat_shr,
      Nat.shiftLeft_eq, Nat.mul_comm, Nat.mod_eq_of_lt (by omega)]
  have hguard : (n : Int) < 64 := by omega
  rw [add_sub_cancel_right] at hshift
  rw [← hshift, order_value]
  unfold compareImpl
  simp only [guard, Int.natCast_nonneg, hguard, if_true, Int.toNat_natCast, BitVec.lt_def, hback,
    toNat_shr]
  change some _ = _
  congr 1
  rcases Nat.lt_trichotomy (L.toNat / 2 ^ n) R.toNat with hlt | heq | hgt
  · have hless : L.toNat < R.toNat * 2 ^ n := (Nat.div_lt_iff_lt_mul (Nat.two_pow_pos n)).mp hlt
    rw [if_pos hlt, if_pos hless]
  · rw [heq] at hsplit
    have hge : ¬L.toNat < 2 ^ n * R.toNat := by omega
    rw [heq, if_neg (Nat.lt_irrefl _), if_neg (Nat.lt_irrefl _), Nat.mul_comm R.toNat, if_neg hge]
  · have hmore : R.toNat * 2 ^ n < L.toNat := by
      have hstep : (R.toNat + 1) * 2 ^ n ≤ L.toNat :=
        (Nat.le_div_iff_mul_le (Nat.two_pow_pos n)).mp hgt
      have hexp : (R.toNat + 1) * 2 ^ n = R.toNat * 2 ^ n + 2 ^ n := Nat.succ_mul _ _
      omega
    rw [if_neg (by omega), if_pos hgt, if_neg (by omega), if_pos hmore]

theorem value_lt_of_lg {E m : Nat} {T : Int} (hD : D < 2 ^ (n + 1)) (hE : 2 ^ m ≤ E)
    (hlg : S + n < T + m) : value D S < value E T := by
  have hlo := two_zpow_le_value hE T
  have hhi := value_lt_two_zpow hD S
  have hle : (2 : ℚ) ^ (S + (n + 1 : ℕ)) ≤ 2 ^ (T + m) := by
    apply zpow_le_zpow_right₀ (by decide)
    omega
  exact lt_of_lt_of_le hhi (le_trans hle hlo)

theorem compare_eq (hw : w ≤ 64) (LDigits : BitVec w) (LScale : Int) (RDigits : BitVec w)
    (RScale : Int) :
    compare LDigits LScale RDigits RScale =
      some (order (value LDigits.toNat LScale) (value RDigits.toNat RScale)) := by
  have hpos {x : BitVec w} (hne : x ≠ 0) : 0 < x.toNat := by
    rw [Nat.pos_iff_ne_zero]
    exact fun hzero => hne (BitVec.eq_of_toNat_eq hzero)
  have hnat : (0 : BitVec w).toNat = 0 := BitVec.toNat_zero
  unfold compare
  by_cases hL : LDigits = 0
  · subst hL
    rw [if_pos rfl, hnat, value_zero]
    by_cases hR : RDigits = 0
    · subst hR
      rw [if_neg (fun h => h rfl), hnat, value_zero, order_self]
    · rw [if_pos hR, order_of_lt (value_pos (hpos hR) RScale)]
  · rw [if_neg hL]
    by_cases hR : RDigits = 0
    · subst hR
      rw [if_pos rfl, hnat, value_zero, order_of_gt (value_pos (hpos hL) LScale)]
    · obtain ⟨n, hn, hLge, hLlt, hLfloor, _⟩ := exists_lg hw hL LScale
      obtain ⟨m, hm, hRge, hRlt, hRfloor, _⟩ := exists_lg hw hR RScale
      rw [if_neg hR, hLfloor, hRfloor]
      simp only [Option.bind_eq_bind, Option.bind_some]
      rcases lt_trichotomy (LScale + n) (RScale + m) with hlt | heq | hgt
      · rw [if_pos (ne_of_lt hlt), if_pos hlt, order_of_lt (value_lt_of_lg hLlt hRge hlt)]
      · rw [if_neg (fun hne => hne heq)]
        by_cases hscale : LScale < RScale
        · obtain ⟨d, hd⟩ := Int.le.dest hscale.le
          have hdiff : RScale - LScale = d := by omega
          rw [if_pos hscale, hdiff, compareImpl_eq _ _ (by omega) LScale, hd,
            BitVec.toNat_setWidth_of_le hw, BitVec.toNat_setWidth_of_le hw]
        · obtain ⟨d, hd⟩ := Int.le.dest (not_lt.mp hscale)
          have hdiff : LScale - RScale = d := by omega
          rw [if_neg hscale, hdiff, compareImpl_eq _ _ (by omega) RScale, hd,
            BitVec.toNat_setWidth_of_le hw, BitVec.toNat_setWidth_of_le hw, Option.bind_some, neg_order]
      · rw [if_pos (ne_of_gt hgt), if_neg (not_lt.mpr hgt.le),
          order_of_gt (value_lt_of_lg hRlt hLge hgt)]

/-! ## Matching scales -/

/-- `D` is `q` at the scale `S`, with low bits dropped. -/
structure Floors (q : ℚ) (D : Nat) (S : Int) : Prop where
  le : value D S ≤ q
  lt : q < value (D + 1) S

theorem Floors.exact (D : Nat) (S : Int) : Floors (value D S) D S :=
  ⟨le_refl _, (value_lt_iff D (D + 1) S).mpr (Nat.lt_succ_self D)⟩

/-- The operands at the scale `S`. Bits are dropped only from the one that is smaller afterwards. -/
structure Matched (l r : ℚ) (S : Int) (t : Operands w) : Prop where
  left : Floors l t.LDigits.toNat S
  right : Floors r t.RDigits.toNat S
  left_exact : value t.LDigits.toNat S ≠ l → t.LDigits.toNat < t.RDigits.toNat
  right_exact : value t.RDigits.toNat S ≠ r → t.RDigits.toNat < t.LDigits.toNat
  left_scale : t.LDigits ≠ 0 → t.LScale = S

theorem Matched.swap (h : Matched l r S t) (hscale : t.RDigits ≠ 0 → t.RScale = S) :
    Matched r l S t.swap :=
  ⟨h.right, h.left, h.right_exact, h.left_exact, hscale⟩

theorem Matched.of_left (hleft : value t.LDigits.toNat S = l)
    (hright : Floors r t.RDigits.toNat S)
    (hexact : value t.RDigits.toNat S ≠ r → t.RDigits.toNat < t.LDigits.toNat)
    (hscale : t.LDigits ≠ 0 → t.LScale = S) : Matched l r S t := by
  refine ⟨?_, hright, fun hne => absurd hleft hne, hexact, hscale⟩
  rw [← hleft]
  exact Floors.exact _ _

theorem floors_zero (hD : D < 2 ^ w) {T : Int} (hle : S + w ≤ T) : Floors (value D S) 0 T := by
  refine ⟨?_, ?_⟩
  · rw [value_zero]
    exact value_nonneg D S
  · have hpow : value (0 + 1) T = 2 ^ T := by
      simp [value]
    rw [hpow]
    exact lt_of_lt_of_le (value_lt_two_zpow hD S) (zpow_le_zpow_right₀ (by decide) hle)

theorem floors_shift (D n : Nat) (S : Int) : Floors (value D S) (D / 2 ^ n) (S + n) := by
  have hlo := value_shift (D / 2 ^ n) n (S + n)
  have hhi := value_shift (D / 2 ^ n + 1) n (S + n)
  rw [add_sub_cancel_right] at hlo hhi
  refine ⟨?_, ?_⟩
  · rw [← hlo, value_le_iff]
    exact Nat.div_mul_le_self D (2 ^ n)
  · rw [← hhi, value_lt_iff, Nat.mul_comm]
    exact Nat.lt_mul_div_succ D (Nat.two_pow_pos n)

theorem matchOrdered_spec (hw : 0 < w) {s : Operands w} (hle : s.RScale ≤ s.LScale)
    (hlo : -32768 ≤ s.RScale) (hhi : s.LScale < 32768) :
    ∃ S t, matchOrdered s = some (S, t) ∧ s.RScale ≤ S ∧ S ≤ s.LScale ∧
      Matched (value s.LDigits.toNat s.LScale) (value s.RDigits.toNat s.RScale) S t ∧
      (t.RDigits ≠ 0 → t.RScale = S) := by
  have hnat : (0 : BitVec w).toNat = 0 := BitVec.toNat_zero
  have hR := s.RDigits.isLt
  unfold matchOrdered
  by_cases hleft : s.LDigits = 0
  · refine ⟨s.RScale, s, if_pos hleft, le_refl _, hle, ?_, fun _ => rfl⟩
    refine Matched.of_left ?_ (Floors.exact _ _) (fun hne => absurd rfl hne)
      (fun hne => absurd hleft hne)
    rw [hleft, hnat, value_zero, value_zero]
  rw [if_neg hleft]
  have hpos : 0 < s.LDigits.toNat := by
    rw [Nat.pos_iff_ne_zero]
    exact fun hzero => hleft (BitVec.eq_of_toNat_eq hzero)
  by_cases hright : s.RDigits = 0 ∨ s.LScale = s.RScale
  · refine ⟨s.LScale, s, if_pos hright, hle, le_refl _, ?_, ?_⟩
    · have hvalue : value s.RDigits.toNat s.RScale = value s.RDigits.toNat s.LScale := by
        rcases hright with hzero | heq
        · rw [hzero, hnat, value_zero, value_zero]
        · rw [heq]
      rw [hvalue]
      exact Matched.of_left rfl (Floors.exact _ _) (fun hne => absurd rfl hne) (fun _ => rfl)
    · intro hne
      exact (hright.resolve_left hne).symm
  rw [if_neg hright]
  -- Bits are dropped down to zero when the scales are too far apart.
  have hfar (hdiff : s.RScale + w ≤ s.LScale) :
      Matched (value s.LDigits.toNat s.LScale) (value s.RDigits.toNat s.RScale) s.LScale
        { s with RDigits := 0 } := by
    refine Matched.of_left rfl ?_ (fun _ => ?_) (fun _ => rfl)
    · rw [hnat]
      exact floors_zero hR hdiff
    · rw [hnat]
      exact hpos
  have hclz := countl_zero_lt hleft
  by_cases hwide : s.LScale - s.RScale ≥ 2 * w
  · exact ⟨s.LScale, _, if_pos hwide, hle, le_refl _, hfar (by omega), fun hne => absurd rfl hne⟩
  · have hcanonical : s.LDigits.toNat < 2 ^ (w - countl_zero s.LDigits) :=
      BitVec.toNat_lt_two_pow_sub_clz
    have hge : 2 ^ (w - 1 - countl_zero s.LDigits) ≤ s.LDigits.toNat :=
      BitVec.two_pow_sub_clz_le_toNat_of_ne_zero hw hleft
    obtain ⟨d, hd⟩ := Int.le.dest hle
    have hdiff : s.LScale - s.RScale = d := by omega
    have hmin : min (countl_zero s.LDigits : Int) (s.LScale - s.RScale) =
        (min (countl_zero s.LDigits) d : ℕ) := by
      rw [hdiff]
      omega
    simp only [if_neg hwide, hmin]
    obtain ⟨l, hl⟩ : ∃ l, l = min (countl_zero s.LDigits) d := ⟨_, rfl⟩
    obtain ⟨r, hr⟩ : ∃ r, r = d - l := ⟨_, rfl⟩
    have hguard : ((l : ℕ) : Int) < w := by omega
    have hrest : s.LScale - s.RScale - (l : Int) = r := by omega
    rw [← hl]
    simp only [guard, hguard, hrest, if_true, ge_iff_le]
    by_cases hvanish : (w : Int) ≤ r
    · simp only [hvanish, if_true]
      exact ⟨s.LScale, _, rfl, hle, le_refl _, hfar (by omega), fun hne => absurd rfl hne⟩
    · have hLScale : int16 (s.LScale - l) = s.RScale + r := by
        rw [int16_eq (by omega) (by omega)]
        omega
      have hRScale : int16 (s.RScale + r) = s.RScale + r := int16_eq (by omega) (by omega)
      simp only [hvanish, hLScale, hRScale, if_true, if_false, Int.toNat_natCast]
      have hshifted : (s.LDigits <<< l).toNat = s.LDigits.toNat * 2 ^ l := by
        rw [toNat_shl, Nat.mod_eq_of_lt]
        calc s.LDigits.toNat * 2 ^ l < 2 ^ (w - countl_zero s.LDigits) * 2 ^ l :=
              Nat.mul_lt_mul_of_pos_right hcanonical (Nat.two_pow_pos l)
          _ ≤ 2 ^ w := by
            rw [← Nat.pow_add]
            apply Nat.pow_le_pow_right (by decide)
            omega
      have hdropped : (s.RDigits >>> r).toNat = s.RDigits.toNat / 2 ^ r := by
        rw [toNat_shr]
      refine ⟨s.RScale + r, _, rfl, by omega, by omega, ?_, fun _ => rfl⟩
      refine Matched.of_left ?_ ?_ ?_ (fun _ => rfl)
      · have hvalue := value_shift s.LDigits.toNat l s.LScale
        have hscale : s.LScale - l = s.RScale + r := by omega
        rw [hscale] at hvalue
        simp only [hshifted]
        exact hvalue
      · simp only [hdropped]
        exact floors_shift _ r _
      · simp only [hshifted, hdropped]
        intro hne
        -- A bit is dropped only after the left digits use all their bits.
        have hrpos : r ≠ 0 := by
          rintro rfl
          apply hne
          simp
        have htop : 2 ^ (w - 1) ≤ s.LDigits.toNat * 2 ^ l := by
          calc 2 ^ (w - 1) = 2 ^ (w - 1 - countl_zero s.LDigits) * 2 ^ l := by
                rw [← Nat.pow_add]
                congr 1
                omega
            _ ≤ s.LDigits.toNat * 2 ^ l := Nat.mul_le_mul_right _ hge
        refine Nat.lt_of_lt_of_le ?_ htop
        rw [Nat.div_lt_iff_lt_mul (Nat.two_pow_pos r), ← Nat.pow_add]
        exact Nat.lt_of_lt_of_le hR (Nat.pow_le_pow_right (by decide) (by omega))

/-- The scales of the numbers themselves. -/
def InRange (Scale : Int) : Prop := MinScale ≤ Scale ∧ Scale ≤ MaxScale

theorem matchScales_spec (hw : 0 < w) (s : Operands w) (hL : InRange s.LScale)
    (hR : InRange s.RScale) :
    ∃ S t, matchScales s = some (S, t) ∧ InRange S ∧
      Matched (value s.LDigits.toNat s.LScale) (value s.RDigits.toNat s.RScale) S t := by
  unfold InRange MinScale MaxScale at *
  unfold matchScales
  by_cases hswap : s.LScale < s.RScale
  · obtain ⟨S, t, hrun, hge, hle, hmatched, hscale⟩ := matchOrdered_spec hw (s := s.swap)
      (le_of_lt hswap) (by simp only [Operands.swap]; omega) (by simp only [Operands.swap]; omega)
    simp only [Operands.swap] at hge hle hmatched
    refine ⟨S, t.swap, ?_, by omega, hmatched.swap hscale⟩
    rw [if_pos hswap, hrun]
    rfl
  · obtain ⟨S, t, hrun, hge, hle, hmatched, _⟩ := matchOrdered_spec hw (s := s)
      (not_lt.mp hswap) (by omega) (by omega)
    exact ⟨S, t, (if_neg hswap).trans hrun, by omega, hmatched⟩

/-! ## Sums and differences -/

/-- The number that digits and scale stand for. -/
abbrev toValue (r : Scaled w) : ℚ := value r.1.toNat r.2

theorem value_add (D E : Nat) (S : Int) : value (D + E) S = value D S + value E S := by
  simp only [value, Nat.cast_add, add_mul]

theorem value_one (S : Int) : value 1 S = 2 ^ S := by
  simp [value]

theorem Matched.sum (h : Matched l r S t) :
    Floors (l + r) (t.LDigits.toNat + t.RDigits.toNat) S := by
  have hleft := h.left
  have hright := h.right
  refine ⟨?_, ?_⟩
  · rw [value_add]
    exact add_le_add hleft.le hright.le
  · by_cases hl : value t.LDigits.toNat S = l
    · rw [Nat.add_assoc, value_add, hl]
      exact add_lt_add_of_le_of_lt (le_refl _) hright.lt
    · have hless := h.left_exact hl
      have hr : value t.RDigits.toNat S = r := by
        by_contra hr
        exact Nat.lt_asymm hless (h.right_exact hr)
      rw [Nat.add_right_comm, value_add, hr]
      exact add_lt_add_of_lt_of_le hleft.lt (le_refl _)

theorem Floors.half {q : ℚ} (h : Floors q D S) : Floors q (D / 2) (S + 1) := by
  have hlo := value_shift (D / 2) 1 (S + 1)
  have hhi := value_shift (D / 2 + 1) 1 (S + 1)
  rw [Nat.cast_one, add_sub_cancel_right] at hlo hhi
  refine ⟨?_, ?_⟩
  · rw [← hlo]
    exact le_trans ((value_le_iff _ _ S).mpr (by omega)) h.le
  · rw [← hhi]
    exact lt_of_lt_of_le h.lt ((value_le_iff _ _ S).mpr (by omega))

theorem Floors.abs_lt {q : ℚ} (h : Floors q D S) : |value D S - q| < 2 ^ S := by
  have hlt := h.lt
  have hle := h.le
  rw [value_add, value_one] at hlt
  rw [abs_sub_lt_iff]
  constructor
  · have hpos := two_zpow_pos S
    linarith
  · linarith

theorem getSum_spec (hw : 0 < w) (LDigits RDigits : BitVec w) {LScale RScale : Int}
    (hL : InRange LScale) (hR : InRange RScale) :
    ∃ r, getSum LDigits LScale RDigits RScale = some r ∧
      |toValue r - (value LDigits.toNat LScale + value RDigits.toNat RScale)| < 2 ^ r.2 := by
  obtain ⟨S, t, hrun, hS, hmatched⟩ := matchScales_spec hw ⟨LDigits, LScale, RDigits, RScale⟩ hL hR
  unfold InRange MinScale MaxScale at hL hR hS
  have hsum := hmatched.sum
  have hLguard : LScale < INT16_MAX := by
    unfold INT16_MAX
    omega
  have hRguard : RScale < INT16_MAX := by
    unfold INT16_MAX
    omega
  unfold getSum
  simp only [guard, hLguard, hRguard, if_true, hrun, Option.pure_def, Option.bind_eq_bind,
    Option.bind_some]
  have hmod : (t.LDigits + t.RDigits).toNat = (t.LDigits.toNat + t.RDigits.toNat) % 2 ^ w :=
    BitVec.toNat_add _ _
  by_cases hfits : t.LDigits.toNat + t.RDigits.toNat < 2 ^ w
  · rw [Nat.mod_eq_of_lt hfits] at hmod
    have htest : t.RDigits ≤ t.LDigits + t.RDigits := by
      rw [BitVec.le_def, hmod]
      omega
    rw [if_pos htest]
    refine ⟨_, rfl, ?_⟩
    simp only [toValue, hmod]
    exact hsum.abs_lt
  · have hwrap : (t.LDigits.toNat + t.RDigits.toNat) % 2 ^ w =
        t.LDigits.toNat + t.RDigits.toNat - 2 ^ w := by
      rw [Nat.mod_eq_sub_mod (Nat.not_lt.mp hfits), Nat.mod_eq_of_lt (by omega)]
    have htest : ¬t.RDigits ≤ t.LDigits + t.RDigits := by
      rw [BitVec.le_def, hmod]
      omega
    have hdouble := two_pow_eq hw
    have htop : ((1 : BitVec w) <<< (w - 1)).toNat = 2 ^ (w - 1) := by
      rw [BitVec.toNat_shiftLeft, toNat_one hw, Nat.one_shiftLeft, Nat.mod_eq_of_lt (by omega)]
    have hhalf : ((1 : BitVec w) <<< (w - 1) ||| (t.LDigits + t.RDigits) >>> 1).toNat =
        (t.LDigits.toNat + t.RDigits.toNat) / 2 := by
      have hlow : (t.LDigits + t.RDigits).toNat / 2 < 2 ^ (w - 1) := by omega
      have hor := Nat.two_pow_add_eq_or_of_lt hlow 1
      rw [Nat.mul_one] at hor
      rw [BitVec.toNat_or, htop, BitVec.toNat_ushiftRight, Nat.shiftRight_one, ← hor, hmod]
      omega
    rw [if_neg htest, int16_eq (by omega) (by omega)]
    refine ⟨_, rfl, ?_⟩
    simp only [toValue, hhalf]
    exact hsum.half.abs_lt

theorem Matched.le_iff (h : Matched l r S t) : t.LDigits.toNat ≤ t.RDigits.toNat ↔ l ≤ r := by
  constructor
  · intro hle
    by_cases hl : value t.LDigits.toNat S = l
    · rw [← hl]
      exact le_trans ((value_le_iff _ _ S).mpr hle) h.right.le
    · have hless := h.left_exact hl
      exact (lt_of_lt_of_le h.left.lt
        (le_trans ((value_le_iff _ _ S).mpr hless) h.right.le)).le
  · intro hle
    by_contra hgt
    have hmore := Nat.not_le.mp hgt
    have hr : r < l := lt_of_lt_of_le h.right.lt
      (le_trans ((value_le_iff _ _ S).mpr hmore) h.left.le)
    exact absurd hle (not_le.mpr hr)

theorem Matched.difference (h : Matched l r S t) (hlt : t.RDigits.toNat < t.LDigits.toNat) :
    value t.LDigits.toNat S = l ∧ |value (t.LDigits.toNat - t.RDigits.toNat) S - (l - r)| < 2 ^ S := by
  have hl : value t.LDigits.toNat S = l := by
    by_contra hl
    exact Nat.lt_asymm hlt (h.left_exact hl)
  have hdiff : value t.LDigits.toNat S =
      value (t.LDigits.toNat - t.RDigits.toNat) S + value t.RDigits.toNat S := by
    rw [← value_add, Nat.sub_add_cancel hlt.le]
  refine ⟨hl, ?_⟩
  have hclose := h.right.abs_lt
  rw [hl] at hdiff
  rw [hdiff, add_sub_assoc, sub_add_cancel_left, abs_neg]
  exact hclose

theorem getDifference_spec (hw : 0 < w) (hw64 : w ≤ 64) (LDigits RDigits : BitVec w)
    {LScale RScale : Int} (hL : InRange LScale) (hR : InRange RScale) :
    ∃ r, getDifference LDigits LScale RDigits RScale = some r ∧
      |toValue r - max (value LDigits.toNat LScale - value RDigits.toNat RScale) 0| < 2 ^ r.2 ∧
      (r.1 = 0 ↔ value LDigits.toNat LScale ≤ value RDigits.toNat RScale) := by
  obtain ⟨S, t, hrun, hS, hmatched⟩ := matchScales_spec hw ⟨LDigits, LScale, RDigits, RScale⟩ hL hR
  unfold InRange MinScale MaxScale at hL hR hS
  simp only at hmatched
  generalize hl : value LDigits.toNat LScale = l at hmatched ⊢
  generalize hr : value RDigits.toNat RScale = r at hmatched ⊢
  have hnat : (0 : BitVec w).toNat = 0 := BitVec.toNat_zero
  unfold getDifference
  simp only [hrun, Option.bind_eq_bind, Option.bind_some, BitVec.le_def]
  by_cases hle : t.LDigits.toNat ≤ t.RDigits.toNat
  · have hlr := hmatched.le_iff.mp hle
    refine ⟨(0, 0), if_pos hle, ?_, iff_of_true rfl hlr⟩
    rw [max_eq_right (sub_nonpos.mpr hlr), toValue, hnat, value_zero, sub_zero, abs_zero]
    exact two_zpow_pos 0
  have hlt := Nat.not_le.mp hle
  have hrl := not_le.mp (mt hmatched.le_iff.mpr hle)
  have hne : t.LDigits ≠ 0 := by
    intro hzero
    rw [hzero, hnat] at hlt
    exact Nat.not_lt_zero _ hlt
  obtain ⟨hexact, hclose⟩ := hmatched.difference hlt
  have hmax : max (l - r) 0 = l - r := max_eq_left (sub_nonneg.mpr hrl.le)
  rw [if_neg hle, hmax, hmatched.left_scale hne]
  by_cases hkept : t.RDigits ≠ 0 ∨ RDigits = 0
  · have hsub : (t.LDigits - t.RDigits).toNat = t.LDigits.toNat - t.RDigits.toNat :=
      toNat_sub_of_le hlt.le
    refine ⟨_, if_pos hkept, ?_, iff_of_false ?_ (not_le.mpr hrl)⟩
    · simp only [toValue, hsub]
      exact hclose
    · intro hzero
      have hdiff := congrArg BitVec.toNat hzero
      rw [hsub, hnat] at hdiff
      omega
  · obtain ⟨hvanished, hR0⟩ := not_or.mp hkept
    rw [not_not.mp hvanished, hnat, Nat.sub_zero] at hclose
    obtain ⟨n, hn, hge, hRlt, hfloor, _⟩ := exists_lg hw64 hR0 RScale
    rw [if_neg hkept, hfloor]
    have hscale : int16 (RScale + n + w) = RScale + n + w := int16_eq (by omega) (by omega)
    have hone : (1 : BitVec w).toNat = 1 := toNat_one hw
    simp only [Option.bind_some, compare_eq hw64, hscale, hone, hexact]
    by_cases hborder : order l (value 1 (RScale + n + w)) = 0
    · rw [order_eq_zero_iff] at hborder
      -- One unit less than the power of two that the left number is.
      have hall : (BitVec.allOnes w).toNat = 2 ^ w - 1 := BitVec.toNat_allOnes
      have hpow := Nat.one_lt_two_pow hw.ne'
      have hunit : l = value (2 ^ w - 1) (RScale + n) + 2 ^ (RScale + n) := by
        rw [← value_one (RScale + n), ← value_add, Nat.sub_add_cancel hpow.le, value_two_pow,
          hborder, value_one]
      refine ⟨_, if_pos ((order_eq_zero_iff _ _).mpr hborder), ?_,
        iff_of_false ?_ (not_le.mpr hrl)⟩
      · have hrlo : 2 ^ (RScale + n) ≤ r := hr ▸ two_zpow_le_value hge RScale
        have hrhi : r < 2 ^ (RScale + n) + 2 ^ (RScale + n) := by
          rw [← mul_two, ← zpow_add_one₀ (by decide : (2 : ℚ) ≠ 0), ← hr, add_assoc]
          exact_mod_cast value_lt_two_zpow hRlt RScale
        rw [int16_eq (by omega) (by omega)]
        simp only [toValue, hall]
        rw [hunit, abs_sub_lt_iff]
        constructor
        · linarith
        · have hpos := two_zpow_pos (RScale + n)
          linarith
      · intro hzero
        have hdigits := congrArg BitVec.toNat hzero
        rw [hall, hnat] at hdigits
        omega
    · exact ⟨_, if_neg hborder, hclose, iff_of_false hne (not_le.mpr hrl)⟩

/--
Products and quotients are rounded half up, comparison and logarithms are
exact, sums and differences are less than one unit off.
-/
theorem scaledNumbers_correct (hw : w = 32 ∨ w = 64) :
    (∀ LHS RHS : BitVec w, RoundsTo ((LHS.toNat : ℚ) * RHS.toNat) (getProduct LHS RHS)) ∧
    (∀ Dividend Divisor : BitVec w, Divisor ≠ 0 →
      ∃ r, (∀ turns, 64 < turns → getQuotient turns Dividend Divisor = some r) ∧
        RoundsTo ((Dividend.toNat : ℚ) / Divisor.toNat) r) ∧
    (∀ (turns : Nat) (Dividend : BitVec w), getQuotient turns Dividend 0 =
      some (if Dividend = 0 then (0, 0) else (BitVec.allOnes w, MaxScale))) ∧
    (∀ (Digits : BitVec w) (Scale : Int), Digits ≠ 0 →
      getLgFloor Digits Scale = some (Int.log 2 (value Digits.toNat Scale)) ∧
        getLgCeiling Digits Scale = some (Int.clog 2 (value Digits.toNat Scale))) ∧
    ∀ (LDigits RDigits : BitVec w) (LScale RScale : Int), InRange LScale → InRange RScale →
      compare LDigits LScale RDigits RScale =
        some (order (value LDigits.toNat LScale) (value RDigits.toNat RScale)) ∧
      (∃ r, getSum LDigits LScale RDigits RScale = some r ∧
        |toValue r - (value LDigits.toNat LScale + value RDigits.toNat RScale)| < 2 ^ r.2) ∧
      ∃ r, getDifference LDigits LScale RDigits RScale = some r ∧
        |toValue r - max (value LDigits.toNat LScale - value RDigits.toNat RScale) 0| <
          2 ^ r.2 ∧
        (r.1 = 0 ↔ value LDigits.toNat LScale ≤ value RDigits.toNat RScale) := by
  have hpos : 0 < w := by omega
  have hle : w ≤ 64 := by omega
  refine ⟨getProduct_rounds hw, fun Dividend Divisor => getQuotient_rounds hw Dividend, ?_, ?_, ?_⟩
  · intro turns Dividend
    unfold getQuotient
    rw [if_pos rfl, apply_ite some]
  · intro Digits Scale hne
    exact ⟨getLgFloor_eq hle hne Scale, getLgCeiling_eq hle hne Scale⟩
  · intro LDigits RDigits LScale RScale hL hR
    exact ⟨compare_eq hle LDigits LScale RDigits RScale, getSum_spec hpos LDigits RDigits hL hR,
      getDifference_spec hpos hle LDigits RDigits hL hR⟩

theorem scaledNumbers_correct_thirds :
    (∃ r, (∀ turns, 64 < turns → getQuotient turns (1 : BitVec 32) 3 = some r) ∧
      RoundsTo (((1 : BitVec 32).toNat : ℚ) / (3 : BitVec 32).toNat) r) ∧
    getLgCeiling (3 : BitVec 32) 5 = some (Int.clog 2 (value (3 : BitVec 32).toNat 5)) ∧
    compare (3 : BitVec 32) 5 1 (-7) =
      some (order (value (3 : BitVec 32).toNat 5) (value (1 : BitVec 32).toNat (-7))) := by
  have hcorrect := scaledNumbers_correct (w := 32) (Or.inl rfl)
  have hrange := hcorrect.2.2.2.2 3 1 5 (-7) ⟨by decide, by decide⟩ ⟨by decide, by decide⟩
  exact ⟨hcorrect.2.1 1 3 (by decide), (hcorrect.2.2.2.1 3 5 (by decide)).2, hrange.1⟩

end SmlnjLlvm.ScaledNumbers
