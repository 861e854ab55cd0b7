import SmlnjLlvm.Support.APIntOps

/-!
# Reports of overflow

Every operation that reports an overflow returns the exact result modulo the
width, and the report is exact. The saturating operations clamp the exact
result, but for a zero that is shifted by the width or more: the shift then
reports an overflow for every value.
-/

namespace SmlnjLlvm.APIntOps

open Support Words

variable {w : Nat}

def sdiv_ov (A RHS : BitVec w) : Option (BitVec w × Bool) :=
  (sdiv A RHS).map fun Res =>
    (Res, decide (A = BitVec.intMin w) && decide (RHS = BitVec.allOnes w))

/-- The shift by an integer, limited to the width. -/
def sshl_ovByInt (A ShAmt : BitVec w) : BitVec w × Bool := sshl_ov A (getLimitedValue ShAmt w)

def ushl_ovByInt (A ShAmt : BitVec w) : BitVec w × Bool := ushl_ov A (getLimitedValue ShAmt w)

def sshl_satBy (A : BitVec w) (RHS : Nat) : BitVec w :=
  if (sshl_ov A RHS).2 then signedBound w A.msb else (sshl_ov A RHS).1

def ushl_satBy (A : BitVec w) (RHS : Nat) : BitVec w :=
  if (ushl_ov A RHS).2 then BitVec.allOnes w else (ushl_ov A RHS).1

theorem sshl_sat_eq (A RHS : BitVec w) : sshl_sat A RHS = sshl_satBy A (getLimitedValue RHS w) :=
  rfl

theorem ushl_sat_eq (A RHS : BitVec w) : ushl_sat A RHS = ushl_satBy A (getLimitedValue RHS w) :=
  rfl

/-- The result of an operation on signed integers, for the exact result `n`. -/
structure SignedReport (r : BitVec w × Bool) (n : Int) : Prop where
  wraps : r.1 = BitVec.ofInt w n
  overflow : r.2 = true ↔ ¬SignedFits w n

/-- The result of an operation on unsigned integers, for the exact result `n`. -/
structure UnsignedReport (r : BitVec w × Bool) (n : Int) : Prop where
  wraps : r.1 = BitVec.ofInt w n
  overflow : r.2 = true ↔ ¬(0 ≤ n ∧ n < 2 ^ w)

theorem ofInt_toInt_shiftLeft (A : BitVec w) (n : Nat) :
    A <<< n = BitVec.ofInt w (A.toInt * 2 ^ n) := by
  rw [BitVec.shiftLeft_eq_mul_twoPow, BitVec.ofInt_mul, BitVec.ofInt_toInt]
  congr 1
  apply BitVec.eq_of_toNat_eq
  rw [BitVec.toNat_twoPow, BitVec.toNat_ofInt]
  have hcast : (2 : Int) ^ n % (2 ^ w : Nat) = ((2 ^ n % 2 ^ w : Nat) : Int) := by
    rfl
  rw [hcast, Int.toNat_natCast]

theorem ofInt_toNat (A : BitVec w) : BitVec.ofInt w A.toNat = A := by
  rw [BitVec.ofInt_natCast, BitVec.ofNat_toNat, BitVec.setWidth_eq]

theorem ofInt_toNat_shiftLeft (A : BitVec w) (n : Nat) :
    A <<< n = BitVec.ofInt w (A.toNat * 2 ^ n) := by
  rw [ofInt_toInt_shiftLeft, BitVec.ofInt_mul, BitVec.ofInt_mul, BitVec.ofInt_toInt, ofInt_toNat]

theorem sadd_ov_report (hw : 0 < w) (A B : BitVec w) :
    SignedReport (sadd_ov A B) (A.toInt + B.toInt) where
  wraps := by
    rw [BitVec.ofInt_add, BitVec.ofInt_toInt, BitVec.ofInt_toInt]
    rfl
  overflow := (sadd_ov_spec hw A B).overflow

theorem ssub_ov_report (hw : 0 < w) (A B : BitVec w) :
    SignedReport (ssub_ov A B) (A.toInt - B.toInt) where
  wraps := by
    rw [Int.sub_eq_add_neg, BitVec.ofInt_add, BitVec.ofInt_neg, BitVec.ofInt_toInt,
      BitVec.ofInt_toInt, ← BitVec.sub_eq_add_neg]
    rfl
  overflow := (ssub_ov_spec hw A B).overflow

theorem uadd_ov_report (A B : BitVec w) :
    UnsignedReport (uadd_ov A B) (A.toNat + B.toNat) where
  wraps := by
    rw [BitVec.ofInt_add, ofInt_toNat, ofInt_toNat]
    rfl
  overflow := by
    rw [(uadd_ov_spec A B).overflow]
    have hcast := cast_two_pow w
    omega

theorem usub_ov_report (A B : BitVec w) :
    UnsignedReport (usub_ov A B) (A.toNat - B.toNat) where
  wraps := by
    rw [Int.sub_eq_add_neg, BitVec.ofInt_add, BitVec.ofInt_neg, ofInt_toNat, ofInt_toNat,
      ← BitVec.sub_eq_add_neg]
    rfl
  overflow := by
    have hdiff := toNat_sub_cases A B
    have hcast := cast_two_pow w
    change decide (A.toNat < (A - B).toNat) = true ↔ _
    rw [decide_eq_true_iff]
    omega

theorem fst_smul_ov (A B : BitVec w) : (smul_ov A B).1 = A * B := by
  unfold smul_ov
  split
  · rfl
  · rfl

theorem smul_ov_report (hw : 0 < w) (A B : BitVec w) :
    SignedReport (smul_ov A B) (A.toInt * B.toInt) where
  wraps := by
    rw [fst_smul_ov, BitVec.ofInt_mul, BitVec.ofInt_toInt, BitVec.ofInt_toInt]
  overflow := (smul_ov_spec hw A B).overflow

theorem half_mul_add (A B : BitVec w) :
    (A >>> 1 * B) <<< 1 + (if A.getLsbD 0 then B else 0) = A * B := by
  apply BitVec.eq_of_toNat_eq
  have hbit : A.getLsbD 0 = decide (A.toNat % 2 = 1) := by
    rw [← BitVec.testBit_toNat, Nat.testBit_zero]
  have hhalf : (A >>> 1).toNat = A.toNat / 2 := by
    rw [toNat_shr, Nat.pow_one]
  have hshift : ((A >>> 1 * B) <<< 1).toNat = 2 * (A.toNat / 2 * B.toNat) % 2 ^ w := by
    rw [toNat_shiftLeft_one, BitVec.toNat_mul, hhalf, Nat.mul_mod_mod]
  rw [BitVec.toNat_add, hshift, BitVec.toNat_mul, Nat.mod_add_mod, hbit]
  congr 1
  by_cases hodd : A.toNat % 2 = 1
  · rw [decide_eq_true hodd, if_pos rfl]
    calc
      2 * (A.toNat / 2 * B.toNat) + B.toNat = (2 * (A.toNat / 2) + 1) * B.toNat := by ring
      _ = A.toNat * B.toNat := by
        congr 1
        omega
  · rw [decide_eq_false hodd, if_neg Bool.false_ne_true]
    calc
      2 * (A.toNat / 2 * B.toNat) + 0 = 2 * (A.toNat / 2) * B.toNat := by ring
      _ = A.toNat * B.toNat := by
        congr 1
        omega

theorem fst_umul_ov (A B : BitVec w) : (umul_ov A B).1 = A * B := by
  unfold umul_ov
  split
  · rfl
  · have hmul := half_mul_add A B
    split
    · rename_i hbit
      rwa [if_pos hbit] at hmul
    · rename_i hbit
      rwa [if_neg hbit, BitVec.ofNat_eq_ofNat, BitVec.add_zero] at hmul

theorem umul_ov_report (hw : 0 < w) (A B : BitVec w) :
    UnsignedReport (umul_ov A B) (A.toNat * B.toNat) where
  wraps := by
    rw [fst_umul_ov, BitVec.ofInt_mul, ofInt_toNat, ofInt_toNat]
  overflow := by
    rw [(umul_ov_spec hw A B).overflow]
    have hcast := cast_two_pow w
    omega

theorem fits_tdiv_iff (hw : 0 < w) {A B : BitVec w} (hB : B ≠ 0) :
    SignedFits w (A.toInt.tdiv B.toInt) ↔ ¬(A = BitVec.intMin w ∧ B = BitVec.allOnes w) := by
  constructor
  · rintro hfit ⟨rfl, rfl⟩
    rw [toInt_intMin hw, BitVec.toInt_allOnes, if_pos hw, Int.tdiv_neg, Int.tdiv_one] at hfit
    unfold SignedFits at hfit
    omega
  · intro hno
    have hno' : A ≠ BitVec.intMin w ∨ B ≠ BitVec.allOnes w := not_and_or.mp hno
    have hquo : (A.sdiv B).toInt = A.toInt.tdiv B.toInt := by
      apply BitVec.toInt_sdiv_of_ne_or_ne
      rwa [BitVec.neg_one_eq_allOnes]
    rw [← hquo]
    exact toInt_bounds hw (A.sdiv B)

theorem sdiv_ov_report (hw : 0 < w) (A : BitVec w) {B : BitVec w} (hB : B ≠ 0) :
    ∃ r, sdiv_ov A B = some r ∧ SignedReport r (A.toInt.tdiv B.toInt) := by
  refine ⟨_, by rw [sdiv_ov, sdiv_eq A hB, Option.map_some], ?_, ?_⟩
  · apply BitVec.eq_of_toInt_eq
    rw [BitVec.toInt_sdiv, BitVec.toInt_ofInt]
  · rw [fits_tdiv_iff hw hB, not_not, Bool.and_eq_true, decide_eq_true_iff, decide_eq_true_iff]

theorem sshl_ov_report (A : BitVec w) {ShAmt : Nat} (h : ShAmt < w) :
    SignedReport (sshl_ov A ShAmt) (A.toInt * 2 ^ ShAmt) where
  wraps := by
    rw [← ofInt_toInt_shiftLeft, sshl_ov, if_neg (Nat.not_le.mpr h)]
    split
    · rfl
    · rfl
  overflow := (sshl_ov_spec h).overflow

theorem ushl_ov_report (A : BitVec w) {ShAmt : Nat} (h : ShAmt < w) :
    UnsignedReport (ushl_ov A ShAmt) (A.toNat * 2 ^ ShAmt) where
  wraps := by
    rw [← ofInt_toNat_shiftLeft, ushl_ov, if_neg (Nat.not_le.mpr h)]
  overflow := by
    rw [(ushl_ov_spec h).overflow]
    have hcast := cast_two_pow w
    have hmul : ((A.toNat * 2 ^ ShAmt : Nat) : Int) = A.toNat * 2 ^ ShAmt := by
      rw [Nat.cast_mul, Nat.cast_pow, Nat.cast_ofNat]
    omega

theorem getLimitedValue_of_lt {A : BitVec w} (h : A.toNat < w) : getLimitedValue A w = A.toNat := by
  rw [getLimitedValue_eq]
  omega

theorem not_fits_shift (hw : 0 < w) {n : Int} (hn : n ≠ 0) {ShAmt : Nat} (h : w ≤ ShAmt) :
    ¬SignedFits w (n * 2 ^ ShAmt) := by
  have hpow : (2 : Int) ^ (w - 1) < 2 ^ ShAmt := by
    have hlt : 2 ^ (w - 1) < 2 ^ ShAmt := Nat.pow_lt_pow_right (by decide) (by omega)
    exact_mod_cast hlt
  intro hfit
  unfold SignedFits at hfit
  rcases Int.lt_or_gt_of_ne hn with hneg | hpos
  · have hle : n * 2 ^ ShAmt ≤ -1 * 2 ^ ShAmt :=
      Int.mul_le_mul_of_nonneg_right (by omega) (by omega)
    omega
  · have hle : 1 * 2 ^ ShAmt ≤ n * 2 ^ ShAmt :=
      Int.mul_le_mul_of_nonneg_right (by omega) (by omega)
    omega

theorem toInt_sshl_satBy (hw : 0 < w) {A : BitVec w} {ShAmt : Nat} (h : ShAmt < w ∨ A ≠ 0) :
    (sshl_satBy A ShAmt).toInt = clampSigned w (A.toInt * 2 ^ ShAmt) := by
  have hpos := int_two_pow_pos ShAmt
  have hsign : A.msb = true ↔ A.toInt * 2 ^ ShAmt < 0 := by
    rw [BitVec.msb_eq_toInt, decide_eq_true_iff, mul_neg_iff]
    omega
  rcases Nat.lt_or_ge ShAmt w with hlt | hge
  · exact (sshl_ov_spec hlt).saturate hw fun _ => hsign
  · have hA : A.toInt ≠ 0 := toInt_ne_zero_iff.mpr (h.resolve_left (Nat.not_lt.mpr hge))
    have hno := not_fits_shift hw hA hge
    have hres : SignedResult (sshl_ov A ShAmt) (A.toInt * 2 ^ ShAmt) := by
      rw [sshl_ov, if_pos hge]
      exact ⟨iff_of_true rfl hno, fun hfit => absurd hfit hno⟩
    exact hres.saturate hw fun _ => hsign

theorem toNat_ushl_satBy {A : BitVec w} {ShAmt : Nat} (h : ShAmt < w ∨ A ≠ 0) :
    (ushl_satBy A ShAmt).toNat = clampUnsigned w (A.toNat * 2 ^ ShAmt) := by
  rcases Nat.lt_or_ge ShAmt w with hlt | hge
  · exact (ushl_ov_spec hlt).saturate
  · have hA : A.toNat ≠ 0 := fun hzero =>
      h.resolve_left (Nat.not_lt.mpr hge) (BitVec.eq_of_toNat_eq hzero)
    have hbig : 2 ^ w ≤ A.toNat * 2 ^ ShAmt :=
      calc
        2 ^ w ≤ 2 ^ ShAmt := Nat.pow_le_pow_right (by decide) hge
        _ ≤ A.toNat * 2 ^ ShAmt := Nat.le_mul_of_pos_left _ (Nat.pos_of_ne_zero hA)
    have hres : UnsignedResult (ushl_ov A ShAmt) (A.toNat * 2 ^ ShAmt) := by
      rw [ushl_ov, if_pos hge]
      exact ⟨iff_of_true rfl hbig, fun hfit => absurd hbig (Nat.not_le.mpr hfit)⟩
    exact hres.saturate

theorem clampSigned_shift (hw : 0 < w) {n : Int} (hn : n ≠ 0) {a b : Nat} (ha : w ≤ a)
    (hb : w ≤ b) : clampSigned w (n * 2 ^ a) = clampSigned w (n * 2 ^ b) := by
  have hfar := not_fits_shift hw hn ha
  have hfar' := not_fits_shift hw hn hb
  have hsign : n * 2 ^ a < 0 ↔ n * 2 ^ b < 0 := by
    have hpos := int_two_pow_pos a
    have hpos' := int_two_pow_pos b
    rw [mul_neg_iff, mul_neg_iff]
    omega
  unfold SignedFits at hfar hfar'
  unfold clampSigned
  omega

theorem clampUnsigned_shift {n : Nat} (hn : n ≠ 0) {a b : Nat} (ha : w ≤ a) (hb : w ≤ b) :
    clampUnsigned w (n * 2 ^ a) = clampUnsigned w (n * 2 ^ b) := by
  have hbig : ∀ {c : Nat}, w ≤ c → 2 ^ w ≤ n * 2 ^ c := fun {c} hc =>
    Nat.le_trans (Nat.pow_le_pow_right (by decide) hc)
      (Nat.le_mul_of_pos_left _ (Nat.pos_of_ne_zero hn))
  have ha' := hbig ha
  have hb' := hbig hb
  unfold clampUnsigned
  omega

theorem toInt_sshl_sat_of (hw : 0 < w) {A RHS : BitVec w} (h : RHS.toNat < w ∨ A ≠ 0) :
    (sshl_sat A RHS).toInt = clampSigned w (A.toInt * 2 ^ RHS.toNat) := by
  rcases Nat.lt_or_ge RHS.toNat w with hlt | hge
  · exact toInt_sshl_sat hlt
  · have hA : A ≠ 0 := h.resolve_left (Nat.not_lt.mpr hge)
    have hlimit : getLimitedValue RHS w = w := by
      rw [getLimitedValue_eq]
      omega
    rw [sshl_sat_eq, hlimit, toInt_sshl_satBy hw (Or.inr hA)]
    exact clampSigned_shift hw (toInt_ne_zero_iff.mpr hA) (Nat.le_refl w) hge

theorem toNat_ushl_sat_of {A RHS : BitVec w} (h : RHS.toNat < w ∨ A ≠ 0) :
    (ushl_sat A RHS).toNat = clampUnsigned w (A.toNat * 2 ^ RHS.toNat) := by
  rcases Nat.lt_or_ge RHS.toNat w with hlt | hge
  · exact toNat_ushl_sat hlt
  · have hA : A ≠ 0 := h.resolve_left (Nat.not_lt.mpr hge)
    have hlimit : getLimitedValue RHS w = w := by
      rw [getLimitedValue_eq]
      omega
    rw [ushl_sat_eq, hlimit, toNat_ushl_satBy (Or.inr hA)]
    exact clampUnsigned_shift (fun hzero => hA (BitVec.eq_of_toNat_eq hzero)) (Nat.le_refl w) hge

/-- The operations that report an overflow, on a pair of operands. -/
structure ReportsExactly (A B : BitVec w) : Prop where
  sadd_ov : SignedReport (sadd_ov A B) (A.toInt + B.toInt)
  uadd_ov : UnsignedReport (uadd_ov A B) (A.toNat + B.toNat)
  ssub_ov : SignedReport (ssub_ov A B) (A.toInt - B.toInt)
  usub_ov : UnsignedReport (usub_ov A B) (A.toNat - B.toNat)
  smul_ov : SignedReport (smul_ov A B) (A.toInt * B.toInt)
  umul_ov : UnsignedReport (umul_ov A B) (A.toNat * B.toNat)
  sdiv_ov : B ≠ 0 → ∃ r, sdiv_ov A B = some r ∧ SignedReport r (A.toInt.tdiv B.toInt)
  sshl_ov : ∀ ShAmt < w, SignedReport (sshl_ov A ShAmt) (A.toInt * 2 ^ ShAmt)
  ushl_ov : ∀ ShAmt < w, UnsignedReport (ushl_ov A ShAmt) (A.toNat * 2 ^ ShAmt)
  sshl_ovByInt : B.toNat < w → SignedReport (sshl_ovByInt A B) (A.toInt * 2 ^ B.toNat)
  ushl_ovByInt : B.toNat < w → UnsignedReport (ushl_ovByInt A B) (A.toNat * 2 ^ B.toNat)

/-- The saturating operations on a pair of operands: the exact result, clamped to the range. -/
structure SaturatesExactly (A B : BitVec w) : Prop where
  sadd_sat : (sadd_sat A B).toInt = clampSigned w (A.toInt + B.toInt)
  uadd_sat : (uadd_sat A B).toNat = clampUnsigned w (A.toNat + B.toNat)
  ssub_sat : (ssub_sat A B).toInt = clampSigned w (A.toInt - B.toInt)
  usub_sat : ((usub_sat A B).toNat : Int) = max 0 (A.toNat - B.toNat)
  smul_sat : (smul_sat A B).toInt = clampSigned w (A.toInt * B.toInt)
  umul_sat : (umul_sat A B).toNat = clampUnsigned w (A.toNat * B.toNat)
  sshl_satBy : ∀ ShAmt, ShAmt < w ∨ A ≠ 0 →
    (sshl_satBy A ShAmt).toInt = clampSigned w (A.toInt * 2 ^ ShAmt)
  ushl_satBy : ∀ ShAmt, ShAmt < w ∨ A ≠ 0 →
    (ushl_satBy A ShAmt).toNat = clampUnsigned w (A.toNat * 2 ^ ShAmt)
  sshl_sat : B.toNat < w ∨ A ≠ 0 →
    (sshl_sat A B).toInt = clampSigned w (A.toInt * 2 ^ B.toNat)
  ushl_sat : B.toNat < w ∨ A ≠ 0 →
    (ushl_sat A B).toNat = clampUnsigned w (A.toNat * 2 ^ B.toNat)

theorem reportsExactly (hw : 0 < w) (A B : BitVec w) : ReportsExactly A B where
  sadd_ov := sadd_ov_report hw A B
  uadd_ov := uadd_ov_report A B
  ssub_ov := ssub_ov_report hw A B
  usub_ov := usub_ov_report A B
  smul_ov := smul_ov_report hw A B
  umul_ov := umul_ov_report hw A B
  sdiv_ov := sdiv_ov_report hw A
  sshl_ov := fun _ => sshl_ov_report A
  ushl_ov := fun _ => ushl_ov_report A
  sshl_ovByInt := by
    intro hlt
    rw [sshl_ovByInt, getLimitedValue_of_lt hlt]
    exact sshl_ov_report A hlt
  ushl_ovByInt := by
    intro hlt
    rw [ushl_ovByInt, getLimitedValue_of_lt hlt]
    exact ushl_ov_report A hlt

theorem saturatesExactly (hw : 0 < w) (A B : BitVec w) : SaturatesExactly A B where
  sadd_sat := toInt_sadd_sat hw A B
  uadd_sat := toNat_uadd_sat A B
  ssub_sat := toInt_ssub_sat hw A B
  usub_sat := by
    rw [toNat_usub_sat]
    omega
  smul_sat := toInt_smul_sat hw A B
  umul_sat := toNat_umul_sat hw A B
  sshl_satBy := fun _ => toInt_sshl_satBy hw
  ushl_satBy := fun _ => toNat_ushl_satBy
  sshl_sat := toInt_sshl_sat_of hw
  ushl_sat := toNat_ushl_sat_of

end SmlnjLlvm.APIntOps
