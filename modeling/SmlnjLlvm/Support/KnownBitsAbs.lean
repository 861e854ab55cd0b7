import SmlnjLlvm.Support.KnownBitsOrder

/-!
# Absolute values and lowest bits of known bits

The negation of a word keeps its lowest one and complements what is above it.
`abs` uses more where the least number is excluded: some bit below the sign is
then set.
-/

namespace SmlnjLlvm.KnownBits

open Support APIntOps BitOrder Words

variable {w : Nat}

/-- `Res.One.clearSignBit()` and `Res.Zero.setSignBit()` -/
def setSignZero (K : KnownBits w) : KnownBits w :=
  ⟨K.Zero ||| BitVec.intMin w, K.One &&& ~~~BitVec.intMin w⟩

/-- `Res.One.setSignBit()` and `Res.Zero.clearSignBit()` -/
def setSignOne (K : KnownBits w) : KnownBits w :=
  ⟨K.Zero &&& ~~~BitVec.intMin w, K.One ||| BitVec.intMin w⟩

def setBits (V : BitVec w) (loBit hiBit : Nat) : Option (BitVec w) :=
  if hiBit ≤ w ∧ loBit ≤ w ∧ loBit ≤ hiBit then
    some (V ||| (getLowBitsSet w hiBit &&& getBitsSetFrom w loBit))
  else none

/-- The operand, with the one bit below the sign that may be set. -/
def absOperand (K : KnownBits w) (IntMinIsPoison : Bool) : Option (KnownBits w) :=
  if IntMinIsPoison && popcount K.Zero + 2 == w then setOneBit K K.countMinTrailingZeros
  else some K

def absOfNegative (K : KnownBits w) (IntMinIsPoison : Bool) : Option (KnownBits w) := do
  let Tmp ← absOperand K IntMinIsPoison
  let KnownAbs ← computeForAddSub false IntMinIsPoison (makeConstant 0) Tmp
  if IntMinIsPoison && popcount Tmp.One == 1 && w - popcount Tmp.Zero != 1 then
    let One ← setBits KnownAbs.One (w - Tmp.setSignZero.countMinLeadingZeros) (w - 1)
    some { KnownAbs with One := One }
  else some KnownAbs

/-- The trailing zeros, and the lowest one if it is known. -/
def absLowBits (K : KnownBits w) : Option (KnownBits w) :=
  let MaxTZ := K.countMaxTrailingZeros
  let MinTZ := K.countMinTrailingZeros
  let KnownAbs : KnownBits w := ⟨getLowBitsSet w MinTZ, 0⟩
  if MaxTZ == MinTZ && MaxTZ < w then setOneBit KnownAbs MaxTZ else some KnownAbs

def absOfUnknown (K : KnownBits w) (IntMinIsPoison : Bool) : Option (KnownBits w) := do
  let KnownAbs ← absLowBits K
  some (if IntMinIsPoison || (K.One != 0 && K.One != BitVec.intMin w) then KnownAbs.setSignZero
    else KnownAbs)

def abs (K : KnownBits w) (IntMinIsPoison : Bool) : Option (KnownBits w) :=
  if K.isNonNegative then some K
  else if K.isNegative then assertNoConflict (absOfNegative K IntMinIsPoison)
  else assertNoConflict (absOfUnknown K IntMinIsPoison)

def blsi (K : KnownBits w) : Option (KnownBits w) :=
  let Max := K.countMaxTrailingZeros
  let Known : KnownBits w := ⟨K.Zero ||| getBitsSetFrom w (min (Max + 1) w), 0⟩
  let Min := K.countMinTrailingZeros
  if Max == Min && Max < w then setOneBit Known Max else some Known

def blsmsk (K : KnownBits w) : KnownBits w :=
  let Max := K.countMaxTrailingZeros
  let Min := K.countMinTrailingZeros
  ⟨getBitsSetFrom w (min (Max + 1) w), getLowBitsSet w (min (Min + 1) w)⟩

variable {K : KnownBits w} {l : BitVec w}

theorem getLsbD_getBitsSetFrom (w n i : Nat) :
    (getBitsSetFrom w n).getLsbD i = (decide (i < w) && decide (n ≤ i)) := by
  rw [getBitsSetFrom, BitVec.getLsbD_shiftLeft, BitVec.getLsbD_allOnes, Bool.eq_iff_iff]
  simp only [Bool.and_eq_true, Bool.not_eq_true', decide_eq_true_iff, decide_eq_false_iff_not]
  omega

theorem exists_one_below_iff (l : BitVec w) {i : Nat} (hi : i < w) :
    (∃ j < i, l.getLsbD j = true) ↔ countr_zero l < i := by
  rw [← not_iff_not, Nat.not_lt, le_countr_zero_iff (Nat.le_of_lt hi)]
  simp

theorem getLsbD_lowestOne (l : BitVec w) (i : Nat) :
    (l &&& -l).getLsbD i = (decide (i < w) && decide (i = countr_zero l)) := by
  by_cases hi : i < w
  · rw [BitVec.getLsbD_and, BitVec.getLsbD_neg, decide_eq_true hi, Bool.true_and, Bool.true_and,
      decide_eq_decide.mpr (exists_one_below_iff l hi)]
    rcases Nat.lt_trichotomy i (countr_zero l) with hlt | heq | hgt
    · rw [(le_countr_zero_iff (countr_zero_le l)).mp (Nat.le_refl _) i hlt,
        decide_eq_false (Nat.ne_of_lt hlt)]
      rfl
    · have hne : l ≠ 0 := by
        rintro rfl
        rw [countr_zero_zero] at heq
        omega
      have hbit : l.getLsbD i = true := heq ▸ (countr_zero_spec hne).1
      rw [hbit, decide_eq_true heq, decide_eq_false (Nat.not_lt.mpr (Nat.le_of_eq heq))]
      rfl
    · rw [decide_eq_true hgt, decide_eq_false (Nat.ne_of_gt hgt)]
      cases l.getLsbD i <;> rfl
  · rw [BitVec.getLsbD_of_ge _ _ (Nat.not_lt.mp hi), decide_eq_false hi, Bool.false_and]

theorem getLsbD_lowestMask (l : BitVec w) (i : Nat) :
    (l ^^^ (l - 1)).getLsbD i = (decide (i < w) && decide (i ≤ countr_zero l)) := by
  have hnot : l - 1 = ~~~(-l) := (BitVec.not_neg l).symm
  rw [hnot]
  by_cases hi : i < w
  · rw [BitVec.getLsbD_xor, BitVec.getLsbD_not, BitVec.getLsbD_neg, decide_eq_true hi,
      Bool.true_and, Bool.true_and, Bool.true_and,
      decide_eq_decide.mpr (exists_one_below_iff l hi)]
    rcases Nat.lt_or_ge (countr_zero l) i with hlt | hge
    · rw [decide_eq_true hlt, decide_eq_false (Nat.not_le.mpr hlt)]
      cases l.getLsbD i <;> rfl
    · rw [decide_eq_false (Nat.not_lt.mpr hge), decide_eq_true hge]
      cases l.getLsbD i <;> rfl
  · rw [BitVec.getLsbD_of_ge _ _ (Nat.not_lt.mp hi), decide_eq_false hi, Bool.false_and]

theorem countr_zero_of_counts (h : l ∈ K) (heq : K.countMaxTrailingZeros = K.countMinTrailingZeros) :
    countr_zero l = K.countMaxTrailingZeros :=
  Nat.le_antisymm (le_countMaxTrailingZeros_of_mem h)
    (heq ▸ countMinTrailingZeros_le_of_mem h)

theorem blsi_mem (K : KnownBits w) : ∃ Q, K.blsi = some Q ∧ ∀ l ∈ K, l &&& -l ∈ Q := by
  have hbase : ∀ l ∈ K, l &&& -l ∈
      (⟨K.Zero ||| getBitsSetFrom w (min (K.countMaxTrailingZeros + 1) w), 0⟩ : KnownBits w) := by
    intro l hl
    have hmax := le_countMaxTrailingZeros_of_mem hl
    rw [mem_iff]
    intro i
    refine ⟨fun hzero => ?_, fun hone => by simp at hone⟩
    rw [BitVec.getLsbD_or, Bool.or_eq_true, getLsbD_getBitsSetFrom] at hzero
    rcases hzero with hzero | hzero
    · rw [BitVec.getLsbD_and, (mem_iff.mp hl i).1 hzero]
      rfl
    · rw [Bool.and_eq_true, decide_eq_true_iff, decide_eq_true_iff] at hzero
      rw [getLsbD_lowestOne, decide_eq_false (p := i = countr_zero l) (by omega), Bool.and_false]
  unfold blsi
  dsimp only
  split
  · next hcounts =>
    rw [Bool.and_eq_true, beq_iff_eq, decide_eq_true_iff] at hcounts
    refine ⟨_, by rw [setOneBit, if_pos hcounts.2], fun l hl => ?_⟩
    refine setOneBit_mem (hbase l hl) ?_
    rw [getLsbD_lowestOne, countr_zero_of_counts hl hcounts.1, decide_eq_true hcounts.2]
    simp
  · exact ⟨_, rfl, hbase⟩

theorem blsmsk_mem (h : l ∈ K) : l ^^^ (l - 1) ∈ K.blsmsk := by
  have hmax := le_countMaxTrailingZeros_of_mem h
  have hmin := countMinTrailingZeros_le_of_mem h
  rw [mem_iff]
  intro i
  simp only [blsmsk, getLsbD_getBitsSetFrom, getLsbD_getLowBitsSet, getLsbD_lowestMask,
    Bool.and_eq_true, Bool.and_eq_false_iff, decide_eq_true_iff, decide_eq_false_iff_not]
  omega

theorem setSignZero_mem (h : l ∈ K) (hsign : l.msb = false) : l ∈ K.setSignZero := by
  have hmem := mem_iff.mp (mem_makeNonNegative h hsign)
  rw [mem_iff]
  intro i
  refine ⟨(hmem i).1, fun hone => ?_⟩
  rw [setSignZero, BitVec.getLsbD_and, Bool.and_eq_true] at hone
  exact (hmem i).2 hone.1

theorem setSignOne_mem (h : l ∈ K) (hsign : l.msb = true) : l ∈ K.setSignOne := by
  have hmem := mem_iff.mp (mem_makeNegative h hsign)
  rw [mem_iff]
  intro i
  refine ⟨fun hzero => ?_, (hmem i).2⟩
  rw [setSignOne, BitVec.getLsbD_and, Bool.and_eq_true] at hzero
  exact (hmem i).1 hzero.1

theorem toInt_gt_of_ne (hw : 0 < w) (hne : l ≠ BitVec.intMin w) : -(2 ^ (w - 1) : Int) < l.toInt := by
  have hmin := toInt_intMin hw
  have hle := (toInt_bounds hw l).1
  refine lt_of_le_of_ne hle fun heq => hne ?_
  exact BitVec.eq_of_toInt_eq (hmin.trans heq).symm

theorem exists_bit_of_ne (hmsb : l.msb = true) (hne : l ≠ BitVec.intMin w) :
    ∃ i < w - 1, l.getLsbD i = true := by
  by_contra hnone
  apply hne
  apply BitVec.eq_of_getLsbD_eq
  intro i hi
  rw [BitVec.getLsbD_intMin]
  by_cases hlast : i + 1 = w
  · have hi' : i = w - 1 := by omega
    rw [decide_eq_true (p := i + 1 = w) hlast, hi', ← BitVec.msb_eq_getLsbD_last, hmsb]
  · rw [decide_eq_false hlast]
    exact Bool.eq_false_of_not_eq_true fun hbit => hnone ⟨i, by omega, hbit⟩

theorem countr_zero_neg (l : BitVec w) : countr_zero (-l) = countr_zero l := by
  have hiff : ∀ s ≤ w, s ≤ countr_zero (-l) ↔ s ≤ countr_zero l := by
    intro s hs
    rw [le_countr_zero_iff_dvd hs, le_countr_zero_iff_dvd hs]
    have hpow : 2 ^ s ∣ 2 ^ w := pow_dvd_pow 2 hs
    rcases toNat_neg_cases l with ⟨hl, hneg⟩ | ⟨-, hsum⟩
    · rw [hl, hneg]
    · rw [← hsum] at hpow
      exact ⟨fun h => (Nat.dvd_add_right h).mp hpow, fun h => (Nat.dvd_add_left h).mp hpow⟩
  have h1 := (hiff _ (countr_zero_le (-l))).mp (Nat.le_refl _)
  have h2 := (hiff _ (countr_zero_le l)).mpr (Nat.le_refl _)
  omega

theorem countr_zero_abs (l : BitVec w) : countr_zero l.abs = countr_zero l := by
  unfold BitVec.abs
  split
  · exact countr_zero_neg l
  · rfl

theorem msb_abs_of_ne (hne : l ≠ BitVec.intMin w) : l.abs.msb = false := by
  rw [BitVec.msb_abs, decide_eq_false hne, Bool.false_and]

/-! ## Absolute values of negative operands -/

theorem length_le_of_popcount {V : BitVec w} {n : Nat} (h : popcount V + n = w) {s : List Nat}
    (hnodup : s.Nodup) (hs : ∀ i ∈ s, i < w ∧ V.getLsbD i = false) : s.length ≤ n := by
  have hcount := List.length_eq_countP_add_countP (fun i => V.getLsbD i) (l := List.range w)
  rw [List.length_range] at hcount
  have hsub : s ⊆ (List.range w).filter fun i => !V.getLsbD i := by
    intro i hi
    rw [List.mem_filter, List.mem_range, (hs i hi).2]
    exact ⟨(hs i hi).1, rfl⟩
  have hle := (hnodup.subperm hsub).length_le
  rw [← List.countP_eq_length_filter] at hle
  have hnot : (List.range w).countP (fun i => !V.getLsbD i) =
      (List.range w).countP fun a => decide ¬V.getLsbD a = true :=
    List.countP_congr fun i _ => by simp
  rw [popcount] at h
  omega

theorem zero_of_mem {i : Nat} (h : l ∈ K) (hbit : l.getLsbD i = true) :
    K.Zero.getLsbD i = false :=
  Bool.eq_false_of_not_eq_true fun hzero => by simp [(mem_iff.mp h i).1 hzero] at hbit

theorem countMinTrailingZeros_spec_of_sign (hK : K.hasConflict = false)
    (hneg : K.isNegative = true) :
    K.countMinTrailingZeros < w ∧ K.Zero.getLsbD K.countMinTrailingZeros = false := by
  have hmem := getMinValue_mem hK
  have hmsb := msb_of_isNegative hmem hneg
  have hw := width_pos_of_msb hmsb
  have hnot : ~~~K.Zero ≠ 0 := by
    intro hall
    have hbit := congrArg (fun v : BitVec w => v.getLsbD (w - 1)) hall
    rw [BitVec.msb_eq_getLsbD_last] at hmsb
    rw [BitVec.getLsbD_not, zero_of_mem hmem hmsb, decide_eq_true (by omega)] at hbit
    simp at hbit
  have hbit := (countr_zero_spec hnot).1
  rw [BitVec.getLsbD_not, Bool.and_eq_true, Bool.not_eq_true'] at hbit
  exact ⟨countr_zero_lt hnot, hbit.2⟩

theorem bit_of_one_unknown (hneg : K.isNegative = true) (hcount : popcount K.Zero + 2 = w)
    (h : l ∈ K) (hne : l ≠ BitVec.intMin w) : l.getLsbD K.countMinTrailingZeros = true := by
  have hmsb := msb_of_isNegative h hneg
  obtain ⟨hlt, hfirst⟩ := countMinTrailingZeros_spec_of_sign (not_conflict_of_mem h) hneg
  obtain ⟨i, hi, hbit⟩ := exists_bit_of_ne hmsb hne
  have hle : K.countMinTrailingZeros ≤ i := by
    by_contra hgt
    have hlow := countMinTrailingZeros_le_of_mem h
    rw [(le_countr_zero_iff (countr_zero_le l)).mp (Nat.le_refl _) i (by omega)] at hbit
    cases hbit
  by_cases heq : K.countMinTrailingZeros = i
  · rwa [heq]
  · exfalso
    rw [BitVec.msb_eq_getLsbD_last] at hmsb
    have hthree := length_le_of_popcount hcount (s := [K.countMinTrailingZeros, i, w - 1])
      (by simp; omega) (by
        intro j hj
        simp only [List.mem_cons, List.not_mem_nil, or_false] at hj
        rcases hj with rfl | rfl | rfl
        · exact ⟨hlt, hfirst⟩
        · exact ⟨by omega, zero_of_mem h hbit⟩
        · exact ⟨by omega, zero_of_mem h hmsb⟩)
    simp at hthree

theorem absOperand_spec (hK : K.hasConflict = false) (hneg : K.isNegative = true)
    (IntMinIsPoison : Bool) :
    ∃ Tmp, K.absOperand IntMinIsPoison = some Tmp ∧ Tmp.hasConflict = false ∧
      Tmp.isNegative = true ∧
      ∀ l ∈ K, (IntMinIsPoison = true → l ≠ BitVec.intMin w) → l ∈ Tmp := by
  unfold absOperand
  split
  · next hpoison =>
    rw [Bool.and_eq_true, beq_iff_eq] at hpoison
    obtain ⟨hlt, hfirst⟩ := countMinTrailingZeros_spec_of_sign hK hneg
    refine ⟨_, by rw [setOneBit, if_pos hlt], ?_, ?_, fun l hl hne =>
      setOneBit_mem hl (bit_of_one_unknown hneg hpoison.2 hl (hne hpoison.1))⟩
    · rw [hasConflict_eq_false_iff] at hK ⊢
      intro i hone
      rw [BitVec.getLsbD_or, Bool.or_eq_true, BitVec.getLsbD_twoPow, Bool.and_eq_true,
        decide_eq_true_iff, decide_eq_true_iff] at hone
      rcases hone with hone | ⟨-, rfl⟩
      · exact hK i hone
      · exact hfirst
    · rw [isNegative] at hneg ⊢
      rw [BitVec.msb_or, hneg, Bool.true_or]
  · exact ⟨K, rfl, hK, hneg, fun l hl _ => hl⟩

theorem neg_bits_of_leading (hw : 0 < w) (h : l ∈ K) (hmsb : l.msb = true)
    (hne : l ≠ BitVec.intMin w) {i : Nat} (hi : w - K.setSignZero.countMinLeadingZeros ≤ i)
    (hlast : i < w - 1) : (-l).getLsbD i = true := by
  have hle : K.setSignZero.countMinLeadingZeros ≤ w := countl_zero_le _
  have hlead := (le_countl_one_iff_bits hle).mp (Nat.le_refl _)
  have hflip : K.setSignZero.countMinLeadingZeros ≤ countl_zero (flipMsb l) := by
    rw [le_countl_zero_iff_bits hle]
    intro j hj
    by_cases hjw : j < w
    · rw [getLsbD_flipMsb l hjw]
      by_cases heq : j = w - 1
      · rw [decide_eq_true heq, heq, ← BitVec.msb_eq_getLsbD_last, hmsb]
        rfl
      · have hzero := hlead j hj hjw
        rw [setSignZero, BitVec.getLsbD_or, BitVec.getLsbD_intMin,
          decide_eq_false (p := j + 1 = w) (by omega), Bool.or_false] at hzero
        rw [decide_eq_false heq, (mem_iff.mp h j).1 hzero]
        rfl
    · exact BitVec.getLsbD_of_ge _ _ (Nat.not_lt.mp hjw)
  have hneg : K.setSignZero.countMinLeadingZeros ≤ countl_one (flipMsb (-l)) := by
    rw [le_countl_one_iff hle]
    rw [le_countl_zero_iff hle] at hflip
    have hl := toNat_flipMsb hw l
    have hnl := toNat_flipMsb hw (-l)
    rw [BitVec.toInt_neg_of_ne_intMin hne] at hnl
    have hpow := two_pow_eq hw
    have hcast := cast_two_pow (w - 1)
    omega
  have hbit := (le_countl_one_iff_bits hle).mp hneg i hi (by omega)
  rwa [getLsbD_flipMsb _ (by omega), decide_eq_false (p := i = w - 1) (by omega),
    Bool.xor_false] at hbit

theorem setBits_mem {lo hi : Nat} (hlo : lo ≤ hi) (hhi : hi ≤ w) (h : l ∈ K)
    (hbits : ∀ i, lo ≤ i → i < hi → l.getLsbD i = true) :
    ∃ One, setBits K.One lo hi = some One ∧ l ∈ ({ K with One := One } : KnownBits w) := by
  refine ⟨_, by rw [setBits, if_pos ⟨hhi, hlo.trans hhi, hlo⟩], ?_⟩
  rw [mem_iff] at h ⊢
  intro i
  refine ⟨(h i).1, fun hone => ?_⟩
  rw [BitVec.getLsbD_or, Bool.or_eq_true, BitVec.getLsbD_and, getLsbD_getLowBitsSet,
    getLsbD_getBitsSetFrom] at hone
  simp only [Bool.and_eq_true, decide_eq_true_iff] at hone
  rcases hone with hone | hone
  · exact (h i).2 hone
  · exact hbits i hone.2.2 hone.1.2

theorem assertNoConflict_of_mem {Q : KnownBits w} {v : BitVec w} (h : v ∈ Q) :
    assertNoConflict (some Q) = some Q := by
  rw [assertNoConflict, Option.filter_some, not_conflict_of_mem h]
  rfl

theorem exists_not_intMin (hneg : K.isNegative = true) (hK : K.hasConflict = false)
    (hcount : w - popcount K.Zero ≠ 1) : ∃ l ∈ K, l ≠ BitVec.intMin w := by
  refine ⟨K.getMaxValue, getMaxValue_mem hK, fun heq => hcount ?_⟩
  have hw := width_pos_of_msb (msb_of_isNegative (getMinValue_mem hK) hneg)
  have hzero : ∀ i ∈ List.range w, K.Zero.getLsbD i = !decide (i = w - 1) := by
    intro i hi
    have hiw := List.mem_range.mp hi
    have hbit := congrArg (fun v : BitVec w => v.getLsbD i) heq
    simp only [getMaxValue, BitVec.getLsbD_not, hiw, decide_true, Bool.true_and,
      BitVec.getLsbD_intMin] at hbit
    rw [← Bool.not_not (K.Zero.getLsbD i), hbit]
    congr 1
    rw [decide_eq_decide]
    omega
  have hlength := List.length_eq_countP_add_countP (fun i => K.Zero.getLsbD i) (l := List.range w)
  have hone : (List.range w).countP (fun i => decide ¬K.Zero.getLsbD i = true) = 1 := by
    have hcongr : (List.range w).countP (fun i => decide ¬K.Zero.getLsbD i = true) =
        (List.range w).countP (· == w - 1) := by
      refine List.countP_congr fun i hi => ?_
      rw [hzero i hi]
      simp
    rw [hcongr]
    exact (List.nodup_range.count (a := w - 1)).trans (by simp; omega)
  rw [hone, List.length_range] at hlength
  rw [popcount]
  omega

theorem absOfNegative_spec (hw : 0 < w) (hK : K.hasConflict = false) (hneg : K.isNegative = true)
    (IntMinIsPoison : Bool) :
    ∃ Q, K.absOfNegative IntMinIsPoison = some Q ∧ Q.hasConflict = false ∧
      ∀ l ∈ K, (IntMinIsPoison = true → l ≠ BitVec.intMin w) → -l ∈ Q := by
  obtain ⟨Tmp, hTmp, hconf, htmpneg, hmem⟩ := absOperand_spec hK hneg IntMinIsPoison
  have hzero : (0 : BitVec w) ∈ makeConstant (0 : BitVec w) := mem_makeConstant.mpr rfl
  obtain ⟨Q, hQ, hQconf, hQmem⟩ := computeForAddSub_mem false IntMinIsPoison
    (not_conflict_of_mem hzero) hconf
  have hQneg : ∀ l ∈ Tmp, (IntMinIsPoison = true → l ≠ BitVec.intMin w) → -l ∈ Q := by
    intro l hl hne
    have hsub := hQmem 0 hzero l hl fun hpoison => by
      have hgt := toInt_gt_of_ne hw (hne hpoison)
      have hlt := (toInt_bounds hw l).2
      rw [if_neg Bool.false_ne_true, SignedFits]
      rw [BitVec.ofNat_eq_ofNat, BitVec.toInt_zero]
      omega
    simpa using hsub
  rw [absOfNegative, hTmp]
  dsimp only [Option.bind_eq_bind, Option.bind_some]
  rw [hQ]
  dsimp only [Option.bind_some]
  split
  · next hcounts =>
    simp only [Bool.and_eq_true, bne_iff_ne] at hcounts
    obtain ⟨⟨hpoison, -⟩, hmax⟩ := hcounts
    have hlead : 1 ≤ Tmp.setSignZero.countMinLeadingZeros := by
      rw [countMinLeadingZeros, le_countl_one_iff_bits hw]
      intro i hi hiw
      rw [setSignZero, BitVec.getLsbD_or, BitVec.getLsbD_intMin,
        decide_eq_true (p := i + 1 = w) (by omega), Bool.or_true]
    have hset : ∀ l ∈ Tmp, l ≠ BitVec.intMin w → ∃ One,
        setBits Q.One (w - Tmp.setSignZero.countMinLeadingZeros) (w - 1) = some One ∧
          -l ∈ ({ Q with One := One } : KnownBits w) := fun l hl hne =>
      setBits_mem (by omega) (by omega) (hQneg l hl fun _ => hne) fun i hi hlast =>
        neg_bits_of_leading hw hl (msb_of_isNegative hl htmpneg) hne hi hlast
    obtain ⟨v, hv, hvne⟩ := exists_not_intMin htmpneg hconf hmax
    obtain ⟨One, hOne, hvmem⟩ := hset v hv hvne
    rw [hOne]
    refine ⟨_, rfl, not_conflict_of_mem hvmem, fun l hl hne => ?_⟩
    obtain ⟨One', hOne', hlmem⟩ := hset l (hmem l hl hne) (hne hpoison)
    obtain rfl := Option.some.inj (hOne.symm.trans hOne')
    exact hlmem
  · exact ⟨Q, rfl, hQconf, fun l hl hne => hQneg l (hmem l hl hne) hne⟩

theorem absLowBits_mem (K : KnownBits w) :
    ∃ Q, K.absLowBits = some Q ∧ ∀ l ∈ K, l.abs ∈ Q := by
  have hlow : ∀ l ∈ K, l.abs ∈ (⟨getLowBitsSet w K.countMinTrailingZeros, 0⟩ : KnownBits w) := by
    intro l hl
    have hle := countMinTrailingZeros_le_of_mem hl
    have hcount : K.countMinTrailingZeros ≤ w := countr_zero_le _
    rw [← countr_zero_abs, le_countr_zero_iff hcount] at hle
    rw [mem_iff]
    intro i
    refine ⟨fun hzero => ?_, fun hone => by simp at hone⟩
    rw [getLsbD_getLowBitsSet, Bool.and_eq_true, decide_eq_true_iff, decide_eq_true_iff] at hzero
    exact hle i hzero.2
  unfold absLowBits
  dsimp only
  split
  · next hcounts =>
    rw [Bool.and_eq_true, beq_iff_eq, decide_eq_true_iff] at hcounts
    refine ⟨_, by rw [setOneBit, if_pos hcounts.2], fun l hl => setOneBit_mem (hlow l hl) ?_⟩
    have hcount := countr_zero_of_counts hl hcounts.1
    rw [← countr_zero_abs] at hcount
    have hne : l.abs ≠ 0 := by
      intro heq
      rw [heq, countr_zero_zero] at hcount
      omega
    rw [← hcount]
    exact (countr_zero_spec hne).1
  · exact ⟨_, rfl, hlow⟩

theorem absOfUnknown_mem (hneg : K.isNegative = false) (IntMinIsPoison : Bool) :
    ∃ Q, K.absOfUnknown IntMinIsPoison = some Q ∧
      ∀ l ∈ K, (IntMinIsPoison = true → l ≠ BitVec.intMin w) → l.abs ∈ Q := by
  obtain ⟨Q, hQ, hmem⟩ := absLowBits_mem K
  rw [absOfUnknown, hQ]
  refine ⟨_, rfl, fun l hl hne => ?_⟩
  split
  · next hsign =>
    refine setSignZero_mem (hmem l hl) (msb_abs_of_ne ?_)
    simp only [Bool.or_eq_true, Bool.and_eq_true, bne_iff_ne] at hsign
    rcases hsign with hpoison | ⟨hnonzero, -⟩
    · exact hne hpoison
    · rintro rfl
      apply hnonzero
      apply BitVec.eq_of_getLsbD_eq
      intro i hi
      refine (Bool.eq_false_of_not_eq_true fun hbit => ?_).trans BitVec.getLsbD_zero.symm
      have hlast := getLsbD_intMin_eq ((mem_iff.mp hl i).2 hbit)
      rw [isNegative, BitVec.msb_eq_getLsbD_last, ← hlast, hbit] at hneg
      cases hneg
  · exact hmem l hl

theorem abs_spec (hw : 0 < w) (hK : K.hasConflict = false) (IntMinIsPoison : Bool) :
    ∃ Q, K.abs IntMinIsPoison = some Q ∧ Q.hasConflict = false ∧
      ∀ l ∈ K, (IntMinIsPoison = true → l ≠ BitVec.intMin w) → l.abs ∈ Q := by
  unfold abs
  split_ifs with hnonneg hneg
  · refine ⟨K, rfl, hK, fun l hl _ => ?_⟩
    rwa [BitVec.abs, if_neg (by rw [msb_of_isNonNegative hl hnonneg]; exact Bool.false_ne_true)]
  · obtain ⟨Q, hQ, hconf, hmem⟩ := absOfNegative_spec hw hK hneg IntMinIsPoison
    refine ⟨Q, by rw [hQ, assertNoConflict, Option.filter_some, hconf]; rfl, hconf,
      fun l hl hne => ?_⟩
    rw [BitVec.abs, if_pos (msb_of_isNegative hl hneg)]
    exact hmem l hl hne
  · obtain ⟨Q, hQ, hmem⟩ := absOfUnknown_mem (Bool.not_eq_true _ ▸ hneg) IntMinIsPoison
    have hmin : K.getMinValue.abs ∈ Q := by
      refine hmem _ (getMinValue_mem hK) fun _ heq => hneg ?_
      rw [isNegative, show K.One = BitVec.intMin w from heq, BitVec.msb_intMin]
      exact decide_eq_true hw
    exact ⟨Q, by rw [hQ, assertNoConflict_of_mem hmin], not_conflict_of_mem hmin, hmem⟩

/-- The operations that depend on the order of the members of two operands. -/
structure OrderSound (LHS RHS : KnownBits w) : Prop where
  makeGE : ∀ c, ∀ v ∈ LHS, c.toNat ≤ v.toNat → v ∈ LHS.makeGE c
  umax : ∀ l ∈ LHS, ∀ r ∈ RHS, APIntOps.umax l r ∈ umax LHS RHS
  umin : ∀ l ∈ LHS, ∀ r ∈ RHS, APIntOps.umin l r ∈ umin LHS RHS
  smax : ∀ l ∈ LHS, ∀ r ∈ RHS, APIntOps.smax l r ∈ smax LHS RHS
  smin : ∀ l ∈ LHS, ∀ r ∈ RHS, APIntOps.smin l r ∈ smin LHS RHS
  abs : ∀ IntMinIsPoison, ∃ Q, LHS.abs IntMinIsPoison = some Q ∧ Q.hasConflict = false ∧
    ∀ l ∈ LHS, (IntMinIsPoison = true → l ≠ BitVec.intMin w) → l.abs ∈ Q
  blsi : ∃ Q, LHS.blsi = some Q ∧ ∀ l ∈ LHS, l &&& -l ∈ Q
  blsmsk : ∀ l ∈ LHS, l ^^^ (l - 1) ∈ LHS.blsmsk

/-- The comparisons of two operands: a value when it is the same for all pairs of members. -/
structure ComparisonsExact (LHS RHS : KnownBits w) : Prop where
  eq : Decides LHS RHS (fun l r => l = r) (eq LHS RHS)
  ne : Decides LHS RHS (fun l r => l ≠ r) (ne LHS RHS)
  ugt : Decides LHS RHS (fun l r => l.toNat > r.toNat) (ugt LHS RHS)
  uge : Decides LHS RHS (fun l r => l.toNat ≥ r.toNat) (uge LHS RHS)
  ult : Decides LHS RHS (fun l r => l.toNat < r.toNat) (ult LHS RHS)
  ule : Decides LHS RHS (fun l r => l.toNat ≤ r.toNat) (ule LHS RHS)
  sgt : Decides LHS RHS (fun l r => l.toInt > r.toInt) (sgt LHS RHS)
  sge : Decides LHS RHS (fun l r => l.toInt ≥ r.toInt) (sge LHS RHS)
  slt : Decides LHS RHS (fun l r => l.toInt < r.toInt) (slt LHS RHS)
  sle : Decides LHS RHS (fun l r => l.toInt ≤ r.toInt) (sle LHS RHS)

theorem orderSound (hw : 0 < w) (LHS RHS : KnownBits w) (hL : LHS.hasConflict = false) :
    OrderSound LHS RHS where
  makeGE := fun _ _ => makeGE_mem
  umax := fun _ hl _ => umax_mem hl
  umin := fun _ hl _ => umin_mem hl
  smax := fun _ hl _ => smax_mem hw hl
  smin := fun _ hl _ => smin_mem hw hl
  abs := abs_spec hw hL
  blsi := blsi_mem LHS
  blsmsk := fun _ => blsmsk_mem

theorem comparisonsExact (hw : 0 < w) (LHS RHS : KnownBits w) (hL : LHS.hasConflict = false)
    (hR : RHS.hasConflict = false) : ComparisonsExact LHS RHS where
  eq := eq_decides hL hR
  ne := (eq_decides hL hR).not
  ugt := ugt_decides hL hR
  uge := (ugt_decides hR hL).symm.not.congr fun _ _ => Nat.not_lt
  ult := (ugt_decides hR hL).symm
  ule := (ugt_decides hL hR).not.congr fun _ _ => Nat.not_lt
  sgt := sgt_decides hL hR hw
  sge := (sgt_decides hR hL hw).symm.not.congr fun _ _ => Int.not_lt
  slt := (sgt_decides hR hL hw).symm
  sle := (sgt_decides hL hR hw).not.congr fun _ _ => Int.not_lt

end SmlnjLlvm.KnownBits
