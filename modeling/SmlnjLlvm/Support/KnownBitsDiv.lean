import SmlnjLlvm.Support.KnownBitsMul

/-!
# Known bits of quotients

The leading bits of a quotient follow from the extreme members of the operands. An
exact quotient has the trailing zeros of the dividend less those of the divisor.
-/

namespace SmlnjLlvm.KnownBits

open Support APIntOps BitOrder LowBits Quotients Words

variable {w : Nat}

/-- `One.setBit(BitPosition)`, with its assertion. -/
def setOneBit (K : KnownBits w) (BitPosition : Nat) : Option (KnownBits w) :=
  if BitPosition < w then some { K with One := K.One ||| BitVec.twoPow w BitPosition } else none

def setTrailingZeros (Known LHS RHS : KnownBits w) : Option (KnownBits w) :=
  let MinTZ : Int := LHS.countMinTrailingZeros - RHS.countMaxTrailingZeros
  let MaxTZ : Int := LHS.countMaxTrailingZeros - RHS.countMinTrailingZeros
  if 0 ≤ MinTZ then
    let Known := { Known with Zero := Known.Zero ||| getLowBitsSet w MinTZ.toNat }
    if MinTZ = MaxTZ then setOneBit Known MinTZ.toNat else some Known
  else if MaxTZ < 0 then some (allZero w)
  else some Known

def divComputeLowBit (Known LHS RHS : KnownBits w) (Exact : Bool) : Option (KnownBits w) :=
  if !Exact then some Known
  else
    (if LHS.One.getLsbD 0 then setOneBit Known 0 else some Known).bind fun Known =>
      (setTrailingZeros Known LHS RHS).map fun Known =>
        if Known.hasConflict then allZero w else Known

/-- The assertion on the result of a division. -/
def assertNoConflict (Known : Option (KnownBits w)) : Option (KnownBits w) :=
  Known.filter fun Known => !Known.hasConflict

def udiv (LHS RHS : KnownBits w) (Exact : Bool) : Option (KnownBits w) :=
  if LHS.hasConflict || RHS.hasConflict then none
  else if LHS.isZero || RHS.isZero then some (allZero w)
  else
    let MinDenom := RHS.getMinValue
    let MaxNum := LHS.getMaxValue
    (if MinDenom = 0 then some MaxNum else APIntOps.udiv MaxNum MinDenom).bind fun MaxRes =>
      assertNoConflict
        (divComputeLowBit ⟨getHighBitsSet w (countl_zero MaxRes), 0⟩ LHS RHS Exact)

/-- The quotient whose leading bits all quotients have, if there is one. -/
def sdivExtreme (LHS RHS : KnownBits w) (Exact : Bool) : Option (Option (BitVec w)) :=
  if LHS.isNegative && RHS.isNegative then
    let Denom := RHS.getSignedMaxValue
    let Num := LHS.getSignedMinValue
    if Num = BitVec.intMin w ∧ Denom = BitVec.allOnes w then some (some (BitVec.intMax w))
    else (APIntOps.sdiv Num Denom).map some
  else if LHS.isNegative && RHS.isNonNegative then
    if Exact || RHS.getSignedMaxValue.ule (-LHS.getSignedMaxValue) then
      let Denom := RHS.getSignedMinValue
      let Num := LHS.getSignedMinValue
      if Denom = 0 then some (some Num) else (APIntOps.sdiv Num Denom).map some
    else some none
  else if LHS.isStrictlyPositive && RHS.isNegative then
    if Exact || (-RHS.getSignedMinValue).ule LHS.getSignedMinValue then
      (APIntOps.sdiv LHS.getSignedMaxValue RHS.getSignedMaxValue).map some
    else some none
  else some none

def leadingBits (Res : Option (BitVec w)) : KnownBits w :=
  match Res with
  | none => unknown w
  | some Res =>
    if !Res.msb then ⟨getHighBitsSet w (countl_zero Res), 0⟩
    else ⟨0, getHighBitsSet w (countl_one Res)⟩

def sdiv (LHS RHS : KnownBits w) (Exact : Bool) : Option (KnownBits w) :=
  if LHS.isNonNegative && RHS.isNonNegative then udiv LHS RHS Exact
  else if LHS.hasConflict || RHS.hasConflict then none
  else if LHS.isZero || RHS.isZero then some (allZero w)
  else
    (sdivExtreme LHS RHS Exact).bind fun Res =>
      assertNoConflict (divComputeLowBit (leadingBits Res) LHS RHS Exact)

variable {K : KnownBits w} {Res q v : BitVec w}

theorem le_countr_zero_iff_dvd {s : Nat} (hs : s ≤ w) : s ≤ countr_zero v ↔ 2 ^ s ∣ v.toNat := by
  rw [le_countr_zero_iff hs, dvd_iff_bits]

theorem countr_zero_mul {r : BitVec w} (h : q * r ≠ 0) :
    countr_zero (q * r) = countr_zero q + countr_zero r := by
  have hq : q ≠ 0 := by
    rintro rfl
    exact h BitVec.zero_mul
  have hr : r ≠ 0 := by
    rintro rfl
    exact h BitVec.mul_zero
  have hqlt := countr_zero_lt hq
  have hrlt := countr_zero_lt hr
  have hqdvd := (le_countr_zero_iff_dvd (Nat.le_of_lt hqlt)).mp (Nat.le_refl _)
  have hrdvd := (le_countr_zero_iff_dvd (Nat.le_of_lt hrlt)).mp (Nat.le_refl _)
  have hqodd := (le_countr_zero_iff_dvd hqlt).not.mp (Nat.not_succ_le_self _)
  have hrodd := (le_countr_zero_iff_dvd hrlt).not.mp (Nat.not_succ_le_self _)
  have hdvd : 2 ^ (countr_zero q + countr_zero r) ∣ q.toNat * r.toNat := by
    rw [Nat.pow_add]
    exact Nat.mul_dvd_mul hqdvd hrdvd
  have hodd := not_dvd_mul hqdvd hrdvd hqodd hrodd
  have hlt : countr_zero q + countr_zero r < w := by
    by_contra hge
    apply h
    apply BitVec.eq_of_toNat_eq
    rw [BitVec.toNat_mul, BitVec.ofNat_eq_ofNat, BitVec.toNat_zero]
    exact Nat.mod_eq_zero_of_dvd ((pow_dvd_pow 2 (Nat.not_lt.mp hge)).trans hdvd)
  apply Nat.le_antisymm
  · by_contra hgt
    have hmore := (le_countr_zero_iff_dvd hlt).mp (Nat.not_le.mp hgt)
    exact hodd ((Nat.dvd_mod_iff (pow_dvd_pow 2 hlt)).mp hmore)
  · rw [le_countr_zero_iff_dvd (Nat.le_of_lt hlt), BitVec.toNat_mul]
    exact (Nat.dvd_mod_iff (pow_dvd_pow 2 (Nat.le_of_lt hlt))).mpr hdvd

theorem countMinTrailingZeros_le_of_mem (h : v ∈ K) : K.countMinTrailingZeros ≤ countr_zero v := by
  have hle : K.countMinTrailingZeros ≤ w := countr_zero_le _
  rw [le_countr_zero_iff hle]
  intro i hi
  exact (mem_iff.mp h i).1 ((le_countr_one_iff hle).mp (Nat.le_refl _) i hi)

theorem le_countMaxTrailingZeros_of_mem (h : v ∈ K) : countr_zero v ≤ K.countMaxTrailingZeros := by
  refine (le_countr_zero_iff (countr_zero_le v)).mpr fun i hi =>
    Bool.eq_false_of_not_eq_true fun hone => ?_
  have hbit := (le_countr_zero_iff (countr_zero_le v)).mp (Nat.le_refl _) i hi
  exact Bool.false_ne_true (hbit.symm.trans ((mem_iff.mp h i).2 hone))

theorem isZero_iff : K.isZero = true ↔ w ≤ K.countMinTrailingZeros := by
  rw [countMinTrailingZeros, le_countr_one_iff (Nat.le_refl w), isZero, beq_iff_eq]
  constructor
  · intro h i hi
    rw [h, BitVec.getLsbD_allOnes, decide_eq_true hi]
  · intro h
    apply BitVec.eq_of_getLsbD_eq
    intro i hi
    rw [h i hi, BitVec.getLsbD_allOnes, decide_eq_true hi]

theorem eq_zero_of_isZero (h : v ∈ K) (hzero : K.isZero = true) : v = 0 := by
  rw [isZero, beq_iff_eq] at hzero
  have hmem := h.1
  rwa [hzero, BitVec.and_allOnes] at hmem

/-! ## Exact quotients -/

section Exact

variable {Known LHS RHS : KnownBits w}

theorem setOneBit_mem {n : Nat} (h : v ∈ K) (hbit : v.getLsbD n = true) :
    v ∈ ({ K with One := K.One ||| BitVec.twoPow w n } : KnownBits w) := by
  rw [mem_iff] at h ⊢
  intro i
  refine ⟨(h i).1, fun hone => ?_⟩
  rw [BitVec.getLsbD_or, Bool.or_eq_true, BitVec.getLsbD_twoPow, Bool.and_eq_true,
    decide_eq_true_iff, decide_eq_true_iff] at hone
  rcases hone with hone | ⟨-, rfl⟩
  · exact (h i).2 hone
  · exact hbit

theorem setLowBits_mem {n : Nat} (h : v ∈ K) (hlow : ∀ i < n, v.getLsbD i = false) :
    v ∈ ({ K with Zero := K.Zero ||| getLowBitsSet w n } : KnownBits w) := by
  rw [mem_iff] at h ⊢
  intro i
  refine ⟨fun hzero => ?_, (h i).2⟩
  rw [BitVec.getLsbD_or, Bool.or_eq_true, getLsbD_getLowBitsSet, Bool.and_eq_true,
    decide_eq_true_iff, decide_eq_true_iff] at hzero
  rcases hzero with hzero | ⟨-, hi⟩
  · exact (h i).1 hzero
  · exact hlow i hi

/-- An exact quotient of two members; the product does not wrap around to zero. -/
structure IsExactQuotient (q l r : BitVec w) : Prop where
  mul : q * r = l
  zero : l = 0 → q = 0

theorem IsExactQuotient.countr_zero {l r : BitVec w} (h : IsExactQuotient q l r) (hl : l ≠ 0) :
    countr_zero l = countr_zero q + countr_zero r := by
  rw [← h.mul] at hl ⊢
  exact countr_zero_mul hl

theorem countr_zero_ranges (hL : LHS.hasConflict = false) :
    LHS.countMinTrailingZeros ≤ LHS.countMaxTrailingZeros :=
  (countMinTrailingZeros_le_of_mem (getMinValue_mem hL)).trans
    (le_countMaxTrailingZeros_of_mem (getMinValue_mem hL))

theorem countMaxTrailingZeros_of_zero_mem (h : (0 : BitVec w) ∈ LHS) :
    w ≤ LHS.countMaxTrailingZeros := by
  have hle := le_countMaxTrailingZeros_of_mem h
  rwa [countr_zero_zero] at hle

theorem countMaxTrailingZeros_le (K : KnownBits w) : K.countMaxTrailingZeros ≤ w :=
  countr_zero_le K.One

theorem setTrailingZeros_spec (Known : KnownBits w) (hR : RHS.hasConflict = false)
    (hzero : LHS.isZero = false) :
    ∃ K, setTrailingZeros Known LHS RHS = some K ∧
      ∀ q ∈ Known, ∀ l ∈ LHS, ∀ r ∈ RHS, IsExactQuotient q l r → q ∈ K := by
  have hRrange := countr_zero_ranges hR
  have hnz : LHS.countMinTrailingZeros < w := by
    by_contra hge
    rw [isZero_iff.mpr (Nat.not_lt.mp hge)] at hzero
    cases hzero
  -- the trailing zeros of a quotient that does not vanish
  have hcount : ∀ q l r : BitVec w, l ∈ LHS → r ∈ RHS → IsExactQuotient q l r → l ≠ 0 →
      (LHS.countMinTrailingZeros : Int) - RHS.countMaxTrailingZeros ≤ countr_zero q ∧
        (countr_zero q : Int) ≤ LHS.countMaxTrailingZeros - RHS.countMinTrailingZeros := by
    intro q l r hl hr hq hne
    have hl_lo := countMinTrailingZeros_le_of_mem hl
    have hl_hi := le_countMaxTrailingZeros_of_mem hl
    have hr_lo := countMinTrailingZeros_le_of_mem hr
    have hr_hi := le_countMaxTrailingZeros_of_mem hr
    have hsum := hq.countr_zero hne
    omega
  have hlow : ∀ q ∈ Known, ∀ l ∈ LHS, ∀ r ∈ RHS, IsExactQuotient q l r →
      q ∈ (⟨Known.Zero |||
        getLowBitsSet w ((LHS.countMinTrailingZeros : Int) - RHS.countMaxTrailingZeros).toNat,
        Known.One⟩ : KnownBits w) := by
    intro q hqK l hl r hr hq
    refine setLowBits_mem hqK fun i hi => ?_
    by_cases hne : l = 0
    · rw [hq.zero hne]
      exact BitVec.getLsbD_zero
    · have hbounds := hcount q l r hl hr hq hne
      exact (le_countr_zero_iff (countr_zero_le q)).mp (Nat.le_refl _) i (by omega)
  simp only [setTrailingZeros]
  split_ifs with hmin heq hmax
  · have hlt : ((LHS.countMinTrailingZeros : Int) - RHS.countMaxTrailingZeros).toNat < w := by
      omega
    refine ⟨_, if_pos hlt, fun q hqK l hl r hr hq => ?_⟩
    refine setOneBit_mem (hlow q hqK l hl r hr hq) ?_
    have hne : l ≠ 0 := by
      rintro rfl
      have hfull := countMaxTrailingZeros_of_zero_mem hl
      omega
    have hbounds := hcount q l r hl hr hq hne
    have hq_ne : q ≠ 0 := by
      rintro rfl
      exact hne (hq.mul.symm.trans BitVec.zero_mul)
    have hexact : countr_zero q =
        ((LHS.countMinTrailingZeros : Int) - RHS.countMaxTrailingZeros).toNat := by
      omega
    rw [← hexact]
    exact (countr_zero_spec hq_ne).1
  · exact ⟨_, rfl, hlow⟩
  · refine ⟨_, rfl, fun q _ l hl r hr hq => ?_⟩
    by_cases hne : l = 0
    · rw [hq.zero hne]
      exact mem_allZero
    · have hbounds := hcount q l r hl hr hq hne
      omega
  · exact ⟨_, rfl, fun q hqK _ _ _ _ _ => hqK⟩

theorem setOddBit_spec (Known LHS : KnownBits w) :
    ∃ K, (if LHS.One.getLsbD 0 then setOneBit Known 0 else some Known) = some K ∧
      ∀ q ∈ Known, ∀ l ∈ LHS, ∀ r, IsExactQuotient q l r → q ∈ K := by
  split_ifs with hodd
  · have hw : 0 < w := BitVec.lt_of_getLsbD hodd
    refine ⟨_, if_pos hw, fun q hqK l hl r hq => setOneBit_mem hqK ?_⟩
    have hbit : l.getLsbD 0 = true := (mem_iff.mp hl 0).2 hodd
    have hne : l ≠ 0 := by
      rintro rfl
      rw [BitVec.ofNat_eq_ofNat, BitVec.getLsbD_zero] at hbit
      cases hbit
    have hl_zero : countr_zero l = 0 :=
      countr_zero_eq (fun i hi => absurd hi (Nat.not_lt_zero i)) hbit
    have hsum := hq.countr_zero hne
    have hq_zero : countr_zero q = 0 := by omega
    have hq_ne : q ≠ 0 := by
      rintro rfl
      exact hne (hq.mul.symm.trans BitVec.zero_mul)
    have hfirst := (countr_zero_spec hq_ne).1
    rwa [hq_zero] at hfirst
  · exact ⟨_, rfl, fun q hqK _ _ _ _ => hqK⟩

theorem divComputeLowBit_spec (Exact : Bool) (hKnown : Known.hasConflict = false)
    (hR : RHS.hasConflict = false) (hzero : LHS.isZero = false) :
    ∃ K, divComputeLowBit Known LHS RHS Exact = some K ∧ K.hasConflict = false ∧
      ∀ q ∈ Known, ∀ l ∈ LHS, ∀ r ∈ RHS, (Exact = true → IsExactQuotient q l r) → q ∈ K := by
  cases Exact
  · exact ⟨Known, rfl, hKnown, fun q hqK _ _ _ _ _ => hqK⟩
  · obtain ⟨K, hK, hodd⟩ := setOddBit_spec Known LHS
    obtain ⟨K', hK', htrail⟩ := setTrailingZeros_spec K hR hzero
    refine ⟨if K'.hasConflict then allZero w else K', ?_, ?_, fun q hqK l hl r hr hq => ?_⟩
    · simp only [divComputeLowBit, Bool.not_true, Bool.false_eq_true, if_false, hK,
        Option.bind_some, hK', Option.map_some]
    · split_ifs with hconf
      · exact not_conflict_of_mem mem_allZero
      · exact Bool.eq_false_of_not_eq_true hconf
    · have hmem := htrail q (hodd q hqK l hl r (hq rfl)) l hl r hr (hq rfl)
      rw [not_conflict_of_mem hmem, if_neg Bool.false_ne_true]
      exact hmem

theorem assertNoConflict_spec (Exact : Bool) (hKnown : Known.hasConflict = false)
    (hR : RHS.hasConflict = false) (hzero : LHS.isZero = false) :
    ∃ K, assertNoConflict (divComputeLowBit Known LHS RHS Exact) = some K ∧
      K.hasConflict = false ∧
      ∀ q ∈ Known, ∀ l ∈ LHS, ∀ r ∈ RHS, (Exact = true → IsExactQuotient q l r) → q ∈ K := by
  obtain ⟨K, heq, hconf, hmem⟩ := divComputeLowBit_spec Exact hKnown hR hzero
  refine ⟨K, ?_, hconf, hmem⟩
  rw [heq, assertNoConflict, Option.filter_some, hconf]
  rfl

end Exact

theorem mem_highZeros {M : BitVec w} (h : v.toNat ≤ M.toNat) :
    v ∈ (⟨getHighBitsSet w (countl_zero M), 0⟩ : KnownBits w) := by
  have hM := (le_countl_zero_iff (countl_zero_le M)).mp (Nat.le_refl _)
  have hbits := (le_countl_zero_iff_bits (countl_zero_le M)).mp
    ((le_countl_zero_iff (countl_zero_le M)).mpr (Nat.lt_of_le_of_lt h hM))
  rw [mem_iff]
  intro i
  rw [getLsbD_getHighBitsSet, Bool.and_eq_true, decide_eq_true_iff, decide_eq_true_iff]
  refine ⟨fun hi => hbits i hi.2, fun hone => ?_⟩
  rw [BitVec.ofNat_eq_ofNat, BitVec.getLsbD_zero] at hone
  cases hone

theorem mem_highOnes {M : BitVec w} (h : M.toNat ≤ v.toNat) :
    v ∈ (⟨0, getHighBitsSet w (countl_one M)⟩ : KnownBits w) := by
  have hlead : countl_one M ≤ w := countl_zero_le _
  have hM := (le_countl_one_iff hlead).mp (Nat.le_refl _)
  have hbits := (le_countl_one_iff_bits hlead).mp
    ((le_countl_one_iff hlead).mpr (Nat.le_trans hM (Nat.add_le_add_right h _)))
  rw [mem_iff]
  intro i
  rw [getLsbD_getHighBitsSet, Bool.and_eq_true, decide_eq_true_iff, decide_eq_true_iff]
  refine ⟨fun hzero => ?_, fun hi => hbits i hi.2 hi.1⟩
  rw [BitVec.ofNat_eq_ofNat, BitVec.getLsbD_zero] at hzero
  cases hzero

theorem highZeros_no_conflict (V : BitVec w) : (⟨V, 0⟩ : KnownBits w).hasConflict = false := by
  rw [hasConflict]
  simp

theorem highOnes_no_conflict (V : BitVec w) : (⟨0, V⟩ : KnownBits w).hasConflict = false := by
  rw [hasConflict]
  simp

theorem leadingBits_no_conflict (Res : Option (BitVec w)) :
    (leadingBits Res).hasConflict = false := by
  unfold leadingBits
  split
  · exact highZeros_no_conflict 0
  · split_ifs
    · exact highZeros_no_conflict _
    · exact highOnes_no_conflict _

theorem mem_leadingBits_of_nonneg (h : Res.msb = false) (hle : q.toNat ≤ Res.toNat) :
    q ∈ leadingBits (some Res) := by
  rw [leadingBits, h]
  exact mem_highZeros hle

theorem mem_leadingBits_of_neg (h : Res.msb = true) (hle : Res.toNat ≤ q.toNat) :
    q ∈ leadingBits (some Res) := by
  rw [leadingBits, h]
  exact mem_highOnes hle

section Division

variable {LHS RHS : KnownBits w} {l r : BitVec w}

theorem isExactQuotient_udiv (hrem : l % r = 0) : IsExactQuotient (l / r) l r := by
  have hmod : l.toNat % r.toNat = 0 := by
    rw [← BitVec.toNat_umod, hrem]
    exact BitVec.toNat_zero
  constructor
  · apply BitVec.eq_of_toNat_eq
    rw [BitVec.toNat_mul, BitVec.toNat_udiv, Nat.div_mul_cancel (Nat.dvd_of_mod_eq_zero hmod),
      Nat.mod_eq_of_lt l.isLt]
  · rintro rfl
    exact BitVec.zero_udiv

theorem udiv_spec (Exact : Bool) (hL : LHS.hasConflict = false) (hR : RHS.hasConflict = false) :
    ∃ K, udiv LHS RHS Exact = some K ∧ K.hasConflict = false ∧
      ∀ l ∈ LHS, ∀ r ∈ RHS, r ≠ 0 → (Exact = true → l % r = 0) → l / r ∈ K := by
  simp only [udiv, hL, hR, Bool.or_self, Bool.false_eq_true, if_false]
  split_ifs with hzero hdenom
  · refine ⟨_, rfl, not_conflict_of_mem mem_allZero, fun l hl r hr hne _ => ?_⟩
    rw [Bool.or_eq_true] at hzero
    rcases hzero with hzero | hzero
    · rw [eq_zero_of_isZero hl hzero, BitVec.ofNat_eq_ofNat, BitVec.zero_udiv]
      exact mem_allZero
    · exact absurd (eq_zero_of_isZero hr hzero) hne
  all_goals
    rw [Bool.not_eq_true, Bool.or_eq_false_iff] at hzero
  · obtain ⟨K, heq, hconf, hmem⟩ := assertNoConflict_spec Exact
      (highZeros_no_conflict (getHighBitsSet w (countl_zero LHS.getMaxValue))) hR hzero.1
    refine ⟨K, heq, hconf, fun l hl r hr _ hrem => ?_⟩
    refine hmem _ (mem_highZeros ?_) l hl r hr fun hexact => isExactQuotient_udiv (hrem hexact)
    rw [BitVec.toNat_udiv]
    exact Nat.le_trans (Nat.div_le_self _ _) (le_getMaxValue hl)
  · rw [APIntOps.udiv_eq _ hdenom, Option.bind_some]
    obtain ⟨K, heq, hconf, hmem⟩ := assertNoConflict_spec Exact
      (highZeros_no_conflict
        (getHighBitsSet w (countl_zero (LHS.getMaxValue / RHS.getMinValue)))) hR hzero.1
    refine ⟨K, heq, hconf, fun l hl r hr _ hrem => ?_⟩
    refine hmem _ (mem_highZeros ?_) l hl r hr fun hexact => isExactQuotient_udiv (hrem hexact)
    rw [BitVec.toNat_udiv, BitVec.toNat_udiv]
    exact Nat.div_le_div (le_getMaxValue hl) (getMinValue_le hr)
      (Nat.pos_iff_ne_zero.mp (toNat_ne_zero.mp hdenom))

/-! ## Signed division -/

theorem toInt_sdiv_of (hno : ¬(l = BitVec.intMin w ∧ r = BitVec.allOnes w)) :
    (l.sdiv r).toInt = l.toInt.tdiv r.toInt := by
  apply BitVec.toInt_sdiv_of_ne_or_ne
  rw [BitVec.neg_one_eq_allOnes, ← not_and_or]
  exact hno

theorem mul_toInt_of_srem (hno : ¬(l = BitVec.intMin w ∧ r = BitVec.allOnes w))
    (hrem : l.srem r = 0) : (l.sdiv r).toInt * r.toInt = l.toInt := by
  have hmod : l.toInt.tmod r.toInt = 0 := by
    rw [← BitVec.toInt_srem, hrem]
    exact BitVec.toInt_zero
  rw [toInt_sdiv_of hno]
  exact Int.tdiv_mul_cancel (Int.dvd_of_tmod_eq_zero hmod)

theorem isExactQuotient_sdiv (hno : ¬(l = BitVec.intMin w ∧ r = BitVec.allOnes w))
    (hrem : l.srem r = 0) : IsExactQuotient (l.sdiv r) l r := by
  constructor
  · apply BitVec.eq_of_toInt_eq
    rw [BitVec.toInt_mul, mul_toInt_of_srem hno hrem, BitVec.toInt_bmod_cancel]
  · rintro rfl
    exact BitVec.zero_sdiv

theorem mem_leadingBits_nonneg (hq : 0 ≤ q.toInt) (hle : q.toInt ≤ Res.toInt) :
    q ∈ leadingBits (some Res) := by
  have hqc := toInt_sign_cases q
  have hRc := toInt_sign_cases Res
  refine mem_leadingBits_of_nonneg ?_ (by omega)
  rw [BitVec.msb_eq_toInt, decide_eq_false_iff_not]
  omega

theorem mem_leadingBits_neg (hq : q.toInt < 0) (hle : Res.toInt ≤ q.toInt) :
    q ∈ leadingBits (some Res) := by
  have hqc := toInt_sign_cases q
  have hRc := toInt_sign_cases Res
  refine mem_leadingBits_of_neg ?_ (by omega)
  rw [BitVec.msb_eq_toInt, decide_eq_true_iff]
  omega

theorem toInt_neg_of_isNegative (h : v ∈ K) (hneg : K.isNegative = true) : v.toInt < 0 := by
  have hmsb := msb_of_isNegative h hneg
  rwa [BitVec.msb_eq_toInt, decide_eq_true_iff] at hmsb

theorem toInt_nonneg_of_isNonNegative (h : v ∈ K) (hpos : K.isNonNegative = true) :
    0 ≤ v.toInt := by
  have hmsb := msb_of_isNonNegative h hpos
  rw [BitVec.msb_eq_toInt, decide_eq_false_iff_not] at hmsb
  omega

theorem ne_zero_of_toInt (h : v.toInt ≠ 0) : v ≠ 0 := by
  rintro rfl
  exact h BitVec.toInt_zero

theorem toNat_neg_of_neg (h : v.toInt < 0) : ((-v).toNat : Int) = -v.toInt := by
  have hv := toInt_sign_cases v
  have hneg := toNat_neg_cases v
  omega

/-- What is known of all quotients of two members. -/
def QuotientsIn (LHS RHS : KnownBits w) (Exact : Bool) (K : KnownBits w) : Prop :=
  ∀ l ∈ LHS, ∀ r ∈ RHS, r ≠ 0 → ¬(l = BitVec.intMin w ∧ r = BitVec.allOnes w) →
    (Exact = true → l.srem r = 0) → l.sdiv r ∈ K

theorem sdivExtreme_of_neg (hw : 0 < w) (Exact : Bool) (hR : RHS.hasConflict = false)
    (hnl : LHS.isNegative = true) (hnr : RHS.isNegative = true) :
    ∃ Res, sdivExtreme LHS RHS Exact = some Res ∧ QuotientsIn LHS RHS Exact (leadingBits Res) := by
  have hdenom := toInt_neg_of_isNegative (getSignedMaxValue_mem hR) hnr
  have hquot : ∀ l ∈ LHS, ∀ r ∈ RHS, ¬(l = BitVec.intMin w ∧ r = BitVec.allOnes w) →
      0 ≤ (l.sdiv r).toInt ∧ (l.sdiv r).toInt ≤
        LHS.getSignedMinValue.toInt.tdiv RHS.getSignedMaxValue.toInt := by
    intro l hl r hr hno
    have hl_neg := toInt_neg_of_isNegative hl hnl
    have hr_neg := toInt_neg_of_isNegative hr hnr
    rw [toInt_sdiv_of hno]
    exact ⟨Int.tdiv_nonneg_of_nonpos_of_nonpos (Int.le_of_lt hl_neg) (Int.le_of_lt hr_neg),
      tdiv_le_tdiv_of_neg (Int.le_of_lt hl_neg) (getSignedMinValue_le hw hl) hdenom
        (le_getSignedMaxValue hw hr)⟩
  simp only [sdivExtreme, hnl, hnr, Bool.and_self, if_true]
  split_ifs with hover
  · refine ⟨_, rfl, fun l hl r hr _ hno _ => ?_⟩
    refine mem_leadingBits_nonneg (hquot l hl r hr hno).1 ?_
    have hbounds := toInt_bounds hw (l.sdiv r)
    rw [toInt_intMax hw]
    omega
  · rw [APIntOps.sdiv_eq _ (ne_zero_of_toInt (Int.ne_of_lt hdenom))]
    refine ⟨_, rfl, fun l hl r hr _ hno _ => ?_⟩
    obtain ⟨hnonneg, hle⟩ := hquot l hl r hr hno
    rw [← toInt_sdiv_of hover] at hle
    exact mem_leadingBits_nonneg hnonneg hle

theorem mem_leadingBits_sdiv {Num Denom : BitVec w}
    (hno' : Denom ≠ BitVec.allOnes w ∨ Num ≠ BitVec.intMin w)
    (hno : ¬(l = BitVec.intMin w ∧ r = BitVec.allOnes w))
    (hneg : l.toInt.tdiv r.toInt < 0)
    (hle : Num.toInt.tdiv Denom.toInt ≤ l.toInt.tdiv r.toInt) :
    l.sdiv r ∈ leadingBits (some (Num.sdiv Denom)) := by
  refine mem_leadingBits_neg ?_ ?_
  · rw [toInt_sdiv_of hno]
    exact hneg
  · rw [toInt_sdiv_of hno, toInt_sdiv_of (by tauto)]
    exact hle

theorem not_isNegative_of_isNonNegative (h : K.hasConflict = false)
    (hpos : K.isNonNegative = true) : K.isNegative = false := by
  have hmsb := msb_of_isNonNegative (getMinValue_mem h) hpos
  exact hmsb

theorem tdiv_neg_of_srem (hno : ¬(l = BitVec.intMin w ∧ r = BitVec.allOnes w))
    (hrem : l.srem r = 0) (hl : l.toInt ≠ 0) (hsign : l.toInt < 0 ↔ 0 < r.toInt) :
    l.toInt.tdiv r.toInt < 0 := by
  have hmul := mul_toInt_of_srem hno hrem
  rw [toInt_sdiv_of hno] at hmul
  exact tdiv_neg_of_exact hmul hl hsign

theorem sdivExtreme_of_neg_left (hw : 0 < w) (Exact : Bool) (hL : LHS.hasConflict = false)
    (hR : RHS.hasConflict = false) (hnl : LHS.isNegative = true)
    (hpr : RHS.isNonNegative = true) :
    ∃ Res, sdivExtreme LHS RHS Exact = some Res ∧ QuotientsIn LHS RHS Exact (leadingBits Res) := by
  have hlast := toInt_neg_of_isNegative (getSignedMaxValue_mem hL) hnl
  have hdenom := toInt_nonneg_of_isNonNegative (getSignedMinValue_mem hR) hpr
  simp only [sdivExtreme, hnl, hpr, not_isNegative_of_isNonNegative hR hpr, Bool.and_false,
    Bool.and_true, Bool.false_eq_true, if_false, if_true]
  have hpos : ∀ r ∈ RHS, r ≠ 0 → 0 < r.toInt := by
    intro r hr hne
    have hnonneg := toInt_nonneg_of_isNonNegative hr hpr
    have hne' : r.toInt ≠ 0 := fun h => hne (BitVec.eq_of_toInt_eq (h.trans BitVec.toInt_zero.symm))
    omega
  by_cases hcond : (Exact || RHS.getSignedMaxValue.ule (-LHS.getSignedMaxValue)) = true
  swap
  · rw [if_neg hcond]
    exact ⟨none, rfl, fun l _ r _ _ _ _ => mem_unknown _⟩
  rw [if_pos hcond]
  have hneg : ∀ l ∈ LHS, ∀ r ∈ RHS, r ≠ 0 → ¬(l = BitVec.intMin w ∧ r = BitVec.allOnes w) →
      (Exact = true → l.srem r = 0) → l.toInt.tdiv r.toInt < 0 := by
    intro l hl r hr hne hno hrem
    have hl_neg := toInt_neg_of_isNegative hl hnl
    have hr_pos := hpos r hr hne
    rw [Bool.or_eq_true, BitVec.ule_iff_toNat_le] at hcond
    rcases hcond with hexact | hule
    · exact tdiv_neg_of_srem hno (hrem hexact) (Int.ne_of_lt hl_neg) (by omega)
    · have hl_le := le_getSignedMaxValue hw hl
      have hr_le := le_getSignedMaxValue hw hr
      have habs := toNat_neg_of_neg hlast
      have hrnat := toInt_sign_cases RHS.getSignedMaxValue
      exact tdiv_neg_of_neg_left hr_pos (by omega)
  split_ifs with hzero
  · refine ⟨_, rfl, fun l hl r hr hne hno hrem => ?_⟩
    have hl_neg := toInt_neg_of_isNegative hl hnl
    have hle := tdiv_le_tdiv_of_neg_left (Int.le_of_lt hl_neg) (getSignedMinValue_le hw hl)
      (show (0 : Int) < 1 by decide) (hpos r hr hne)
    rw [Int.tdiv_one] at hle
    refine mem_leadingBits_neg ?_ ?_
    · rw [toInt_sdiv_of hno]
      exact hneg l hl r hr hne hno hrem
    · rw [toInt_sdiv_of hno]
      exact hle
  · rw [APIntOps.sdiv_eq _ hzero]
    have hdenom_pos := hpos _ (getSignedMinValue_mem hR) hzero
    have hones : RHS.getSignedMinValue ≠ BitVec.allOnes w := by
      intro h
      rw [h, BitVec.toInt_allOnes, if_pos hw] at hdenom
      omega
    refine ⟨_, rfl, fun l hl r hr hne hno hrem => ?_⟩
    have hl_neg := toInt_neg_of_isNegative hl hnl
    exact mem_leadingBits_sdiv (Or.inl hones) hno (hneg l hl r hr hne hno hrem)
      (tdiv_le_tdiv_of_neg_left (Int.le_of_lt hl_neg) (getSignedMinValue_le hw hl) hdenom_pos
        (getSignedMinValue_le hw hr))

theorem toInt_pos_of_isStrictlyPositive (h : v ∈ K) (hpos : K.isStrictlyPositive = true) :
    0 < v.toInt := by
  rw [isStrictlyPositive, Bool.and_eq_true, bne_iff_ne] at hpos
  have hnonneg := toInt_nonneg_of_isNonNegative h hpos.1
  have hle := getMinValue_le h
  have hone := toNat_ne_zero.mp hpos.2
  have hv := toInt_sign_cases v
  unfold getMinValue at hle
  omega

theorem sdivExtreme_of_neg_right (hw : 0 < w) (Exact : Bool) (hL : LHS.hasConflict = false)
    (hR : RHS.hasConflict = false) (hpl : LHS.isStrictlyPositive = true)
    (hnr : RHS.isNegative = true) :
    ∃ Res, sdivExtreme LHS RHS Exact = some Res ∧ QuotientsIn LHS RHS Exact (leadingBits Res) := by
  have hnum := toInt_pos_of_isStrictlyPositive (getSignedMaxValue_mem hL) hpl
  have hleast := toInt_pos_of_isStrictlyPositive (getSignedMinValue_mem hL) hpl
  have hdenom := toInt_neg_of_isNegative (getSignedMaxValue_mem hR) hnr
  have hrmin := toInt_neg_of_isNegative (getSignedMinValue_mem hR) hnr
  have hnl : LHS.isNegative = false := by
    rw [isStrictlyPositive, Bool.and_eq_true] at hpl
    exact not_isNegative_of_isNonNegative hL hpl.1
  simp only [sdivExtreme, hpl, hnl, hnr, Bool.and_true, Bool.and_self, Bool.false_and,
    Bool.false_eq_true, if_false, if_true]
  by_cases hcond : (Exact || (-RHS.getSignedMinValue).ule LHS.getSignedMinValue) = true
  swap
  · rw [if_neg hcond]
    exact ⟨none, rfl, fun l _ r _ _ _ _ => mem_unknown _⟩
  rw [if_pos hcond, APIntOps.sdiv_eq _ (ne_zero_of_toInt (Int.ne_of_lt hdenom))]
  have hnum_min : LHS.getSignedMaxValue ≠ BitVec.intMin w := by
    intro h
    have hpow := int_two_pow_pos (w - 1)
    rw [h, toInt_intMin hw] at hnum
    omega
  refine ⟨_, rfl, fun l hl r hr hne hno hrem => ?_⟩
  have hl_pos := toInt_pos_of_isStrictlyPositive hl hpl
  have hr_neg := toInt_neg_of_isNegative hr hnr
  refine mem_leadingBits_sdiv (Or.inr hnum_min) hno ?_
    (tdiv_le_tdiv_of_neg_right (Int.le_of_lt hl_pos) (le_getSignedMaxValue hw hl) hdenom
      (le_getSignedMaxValue hw hr))
  rw [Bool.or_eq_true, BitVec.ule_iff_toNat_le] at hcond
  rcases hcond with hexact | hule
  · exact tdiv_neg_of_srem hno (hrem hexact) (Int.ne_of_gt hl_pos) (by omega)
  · have hl_le := getSignedMinValue_le hw hl
    have hr_le := getSignedMinValue_le hw hr
    have habs := toNat_neg_of_neg hrmin
    have hlnat := toInt_sign_cases LHS.getSignedMinValue
    exact tdiv_neg_of_neg_right hr_neg (by omega)

theorem sdivExtreme_spec (hw : 0 < w) (Exact : Bool) (hL : LHS.hasConflict = false)
    (hR : RHS.hasConflict = false) :
    ∃ Res, sdivExtreme LHS RHS Exact = some Res ∧ QuotientsIn LHS RHS Exact (leadingBits Res) := by
  by_cases hboth : (LHS.isNegative && RHS.isNegative) = true
  · rw [Bool.and_eq_true] at hboth
    exact sdivExtreme_of_neg hw Exact hR hboth.1 hboth.2
  by_cases hleft : (LHS.isNegative && RHS.isNonNegative) = true
  · rw [Bool.and_eq_true] at hleft
    exact sdivExtreme_of_neg_left hw Exact hL hR hleft.1 hleft.2
  by_cases hright : (LHS.isStrictlyPositive && RHS.isNegative) = true
  · rw [Bool.and_eq_true] at hright
    exact sdivExtreme_of_neg_right hw Exact hL hR hright.1 hright.2
  refine ⟨none, ?_, fun l _ r _ _ _ _ => mem_unknown _⟩
  rw [sdivExtreme, if_neg hboth, if_neg hleft, if_neg hright]

theorem sdiv_eq_udiv (hl : l.msb = false) (hr : r.msb = false) : l.sdiv r = l / r := by
  rw [BitVec.sdiv_eq, hl, hr]
  rfl

theorem srem_eq_umod (hl : l.msb = false) (hr : r.msb = false) : l.srem r = l % r := by
  rw [BitVec.srem_eq, hl, hr]

theorem sdiv_spec (hw : 0 < w) (Exact : Bool) (hL : LHS.hasConflict = false)
    (hR : RHS.hasConflict = false) :
    ∃ K, sdiv LHS RHS Exact = some K ∧ K.hasConflict = false ∧ QuotientsIn LHS RHS Exact K := by
  by_cases hpos : (LHS.isNonNegative && RHS.isNonNegative) = true
  · obtain ⟨K, heq, hconf, hmem⟩ := udiv_spec Exact hL hR
    rw [sdiv, if_pos hpos]
    rw [Bool.and_eq_true] at hpos
    refine ⟨K, heq, hconf, fun l hl r hr hne _ hrem => ?_⟩
    have hlmsb := msb_of_isNonNegative hl hpos.1
    have hrmsb := msb_of_isNonNegative hr hpos.2
    rw [srem_eq_umod hlmsb hrmsb] at hrem
    rw [sdiv_eq_udiv hlmsb hrmsb]
    exact hmem l hl r hr hne hrem
  simp only [sdiv, if_neg hpos, hL, hR, Bool.or_self, Bool.false_eq_true, if_false]
  split_ifs with hzero
  · refine ⟨_, rfl, not_conflict_of_mem mem_allZero, fun l hl r hr hne _ _ => ?_⟩
    rw [Bool.or_eq_true] at hzero
    rcases hzero with hzero | hzero
    · rw [eq_zero_of_isZero hl hzero, BitVec.ofNat_eq_ofNat, BitVec.zero_sdiv]
      exact mem_allZero
    · exact absurd (eq_zero_of_isZero hr hzero) hne
  · rw [Bool.not_eq_true, Bool.or_eq_false_iff] at hzero
    obtain ⟨Res, hRes, hquot⟩ := sdivExtreme_spec hw Exact hL hR
    obtain ⟨K, heq, hconf, hmem⟩ :=
      assertNoConflict_spec Exact (leadingBits_no_conflict Res) hR hzero.1
    rw [hRes, Option.bind_some]
    refine ⟨K, heq, hconf, fun l hl r hr hne hno hrem => ?_⟩
    exact hmem _ (hquot l hl r hr hne hno hrem) l hl r hr fun hexact =>
      isExactQuotient_sdiv hno (hrem hexact)

end Division

end SmlnjLlvm.KnownBits
