import SmlnjLlvm.Support.KnownBits

/-!
# Known bits of shifts

What is known of a shift is what all possible amounts have in common. The loop
runs over the amounts between two bounds, leaves out those that the known bits of
the amount exclude, and may stop early when nothing is known any more. Amounts
that make the shift poison may be left out as well.
-/

namespace SmlnjLlvm.KnownBits

open Support APIntOps BitOrder

variable {w v : Nat}

/-- `extractBitsAsZExtValue`, with the assertions on the bits that there are. The other one asks
for at most 64 bits, and no logarithm of an `unsigned` is larger. -/
def extractBitsAsZExtValue (V : BitVec v) (numBits bitPosition : Nat) : Option Nat :=
  if bitPosition < v ∧ numBits + bitPosition ≤ v then some ((V >>> bitPosition).toNat % 2 ^ numBits)
  else none

def getMaxShiftAmount (MaxValue : BitVec v) (BitWidth : Nat) : Option Nat :=
  if isPowerOf2_32 BitWidth then extractBitsAsZExtValue MaxValue (Log2_32 BitWidth) 0
  else some (getLimitedValue MaxValue (BitWidth - 1))

def getMinShiftAmount (RHS : KnownBits v) (BitWidth : Nat) (ShAmtNonZero : Bool) : Nat :=
  let MinShiftAmount := getLimitedValue RHS.getMinValue BitWidth
  if MinShiftAmount == 0 && ShAmtNonZero then 1 else MinShiftAmount

def unsignedPred (n : Nat) : Nat := if n = 0 then 2 ^ 32 - 1 else n - 1

/-- The amounts that the masks of the loop do not exclude. -/
def isPossibleAmount (RHS : KnownBits v) (ShiftAmt : Nat) : Bool :=
  let ShiftAmtZeroMask := (BitVec.setWidth 32 RHS.Zero).toNat
  let ShiftAmtOneMask := (BitVec.setWidth 32 RHS.One).toNat
  ShiftAmtZeroMask &&& ShiftAmt == 0 && ShiftAmtOneMask ||| ShiftAmt == ShiftAmt

/-- `turns` amounts are left, from `ShiftAmt` on. -/
def shiftLoop (isPossible : Nat → Bool) (ShiftByConst : Nat → KnownBits w) :
    (turns ShiftAmt : Nat) → (Known : KnownBits w) → KnownBits w
  | 0, _, Known => Known
  | turns + 1, ShiftAmt, Known =>
    if !isPossible ShiftAmt then shiftLoop isPossible ShiftByConst turns (ShiftAmt + 1) Known
    else
      let Known := Known.intersectWith (ShiftByConst ShiftAmt)
      if Known.isUnknown then Known
      else shiftLoop isPossible ShiftByConst turns (ShiftAmt + 1) Known

/-- The bits that all possible shifts have in common; all amounts may result in poison. -/
def commonOfShifts (RHS : KnownBits v) (ShiftByConst : Nat → KnownBits w)
    (MinShiftAmount MaxShiftAmount : Nat) : KnownBits w :=
  let Known := shiftLoop (isPossibleAmount RHS) ShiftByConst (MaxShiftAmount + 1 - MinShiftAmount)
    MinShiftAmount ⟨BitVec.allOnes w, BitVec.allOnes w⟩
  if Known.hasConflict then allZero w else Known

def shlByConst (NUW NSW : Bool) (LHS : KnownBits w) (ShiftAmt : Nat) : KnownBits w :=
  let (Zero, ShiftedOutZero) := ushl_ov LHS.Zero ShiftAmt
  let (One, ShiftedOutOne) := ushl_ov LHS.One ShiftAmt
  let Known : KnownBits w := ⟨Zero ||| getLowBitsSet w ShiftAmt, One⟩
  if NSW then
    if NUW && ShiftAmt != 0 || ShiftedOutZero then Known.makeNonNegative
    else if ShiftedOutOne then Known.makeNegative
    else Known
  else Known

/-- The bound on the amounts that do not make a shift with these flags poison. -/
def limitByFlags (LHS : KnownBits w) (NUW NSW : Bool) (MaxShiftAmount : Nat) : Nat :=
  let M := if NUW && NSW then min MaxShiftAmount (unsignedPred LHS.countMaxLeadingZeros)
    else MaxShiftAmount
  let M := if NUW then min M LHS.countMaxLeadingZeros else M
  if NSW then min M (unsignedPred (max LHS.countMaxLeadingZeros LHS.countMaxLeadingOnes)) else M

def shlOfUnknown (w : Nat) (NUW NSW : Bool) (MinShiftAmount : Nat) : KnownBits w :=
  let Known : KnownBits w := ⟨getLowBitsSet w MinShiftAmount, 0⟩
  if NUW && NSW && MinShiftAmount != 0 then Known.makeNonNegative else Known

/-- The result of the quick exit for amounts of which nothing is known. -/
def shlOfAnyAmount (NSW : Bool) (LHS : KnownBits w) : KnownBits w :=
  let Known : KnownBits w := ⟨getLowBitsSet w LHS.countMinTrailingZeros, 0⟩
  let Known := if LHS.isAllOnes then Known.makeNegative else Known
  if NSW then
    let Known := if LHS.isNonNegative then Known.makeNonNegative else Known
    if LHS.isNegative then Known.makeNegative else Known
  else Known

def isAnyAmount (w MinShiftAmount MaxShiftAmount : Nat) : Bool :=
  MinShiftAmount == 0 && MaxShiftAmount == w - 1 && isPowerOf2_32 w

def shl (LHS : KnownBits w) (RHS : KnownBits v) (NUW NSW ShAmtNonZero : Bool) :
    Option (KnownBits w) :=
  let MinShiftAmount := getMinShiftAmount RHS w ShAmtNonZero
  if LHS.isUnknown then some (shlOfUnknown w NUW NSW MinShiftAmount)
  else
    (getMaxShiftAmount RHS.getMaxValue w).bind fun MaxShiftAmount =>
      let MaxShiftAmount := limitByFlags LHS NUW NSW MaxShiftAmount
      if isAnyAmount w MinShiftAmount MaxShiftAmount then
        if LHS.hasConflict then none else some (shlOfAnyAmount NSW LHS)
      else some (commonOfShifts RHS (shlByConst NUW NSW LHS) MinShiftAmount MaxShiftAmount)

def lshrByConst (LHS : KnownBits w) (ShiftAmt : Nat) : KnownBits w :=
  ⟨LHS.Zero >>> ShiftAmt ||| getHighBitsSet w ShiftAmt, LHS.One >>> ShiftAmt⟩

def lshr (LHS : KnownBits w) (RHS : KnownBits v) (ShAmtNonZero : Bool) : Option (KnownBits w) :=
  let MinShiftAmount := getMinShiftAmount RHS w ShAmtNonZero
  if LHS.isUnknown then some ⟨getHighBitsSet w MinShiftAmount, 0⟩
  else
    (getMaxShiftAmount RHS.getMaxValue w).map fun MaxShiftAmount =>
      commonOfShifts RHS (lshrByConst LHS) MinShiftAmount MaxShiftAmount

def ashrByConst (LHS : KnownBits w) (ShiftAmt : Nat) : KnownBits w :=
  ⟨LHS.Zero.sshiftRight ShiftAmt, LHS.One.sshiftRight ShiftAmt⟩

def ashr (LHS : KnownBits w) (RHS : KnownBits v) (ShAmtNonZero : Bool) : Option (KnownBits w) :=
  let MinShiftAmount := getMinShiftAmount RHS w ShAmtNonZero
  if LHS.isUnknown then some (if MinShiftAmount = w then allZero w else unknown w)
  else
    (getMaxShiftAmount RHS.getMaxValue w).map fun MaxShiftAmount =>
      commonOfShifts RHS (ashrByConst LHS) MinShiftAmount MaxShiftAmount

variable {K K' Q : KnownBits w} {M n : Nat} {ShAmtNonZero : Bool}

section Amounts

variable {RHS : KnownBits v} {s : BitVec v}

/-- The widths for which the upper bound can be read off the amount. -/
def AmountFits (w v : Nat) : Prop := v = w ∨ 0 < v ∧ Log2_32 w ≤ v

theorem getMaxShiftAmount_eq (hw : 0 < w) (h : AmountFits w v) (MaxValue : BitVec v) :
    ∃ M, getMaxShiftAmount MaxValue w = some M ∧ M < w ∧
      M = if isPowerOf2_32 w then MaxValue.toNat % w else min MaxValue.toNat (w - 1) := by
  unfold getMaxShiftAmount
  split_ifs with hpow
  · have heq := eq_two_pow_of_isPowerOf2_32 hpow
    have hfits : 0 < v ∧ Log2_32 w + 0 ≤ v := by
      rcases h with rfl | h
      · exact ⟨hw, Nat.log2_le_self v⟩
      · exact h
    refine ⟨_, if_pos hfits, ?_, ?_⟩
    · rw [← heq]
      exact Nat.mod_lt _ hw
    · rw [← heq, BitVec.ushiftRight_zero]
  · refine ⟨_, rfl, ?_, getLimitedValue_eq _ _⟩
    rw [getLimitedValue_eq]
    omega

theorem getMaxShiftAmount_spec (hw : 0 < w) (h : AmountFits w v) (RHS : KnownBits v) :
    ∃ M, getMaxShiftAmount RHS.getMaxValue w = some M ∧ M < w ∧
      ∀ s ∈ RHS, s.toNat < w → s.toNat ≤ M := by
  obtain ⟨M, heq, hlt, hM⟩ := getMaxShiftAmount_eq hw h RHS.getMaxValue
  refine ⟨M, heq, hlt, fun s hs hsw => ?_⟩
  have hbelow := (mem_iff_below.mp hs).2
  rw [hM]
  split_ifs with hpow
  · have hmod := hbelow.mod_le (Log2_32 w)
    rw [← eq_two_pow_of_isPowerOf2_32 hpow, Nat.mod_eq_of_lt hsw] at hmod
    exact hmod
  · exact Nat.le_min.mpr ⟨hbelow.toNat_le, Nat.le_sub_one_of_lt hsw⟩

theorem getMinShiftAmount_le (hs : s ∈ RHS) (hsw : s.toNat < w)
    (hnz : ShAmtNonZero = true → s ≠ 0) : getMinShiftAmount RHS w ShAmtNonZero ≤ s.toNat := by
  have hle := getMinValue_le hs
  simp only [getMinShiftAmount, getLimitedValue_eq]
  split_ifs with h
  · rw [Bool.and_eq_true] at h
    exact toNat_ne_zero.mp (hnz h.2)
  · omega

theorem testBit_setWidth_32 {M : BitVec v} {i : Nat}
    (h : (BitVec.setWidth 32 M).toNat.testBit i = true) : M.getLsbD i = true := by
  rw [BitVec.testBit_toNat, BitVec.getLsbD_setWidth, Bool.and_eq_true] at h
  exact h.2

theorem isPossibleAmount_of_mem (hs : s ∈ RHS) : isPossibleAmount RHS s.toNat = true := by
  have hbits := mem_iff.mp hs
  rw [isPossibleAmount, Bool.and_eq_true, beq_iff_eq, beq_iff_eq]
  constructor
  · apply Nat.eq_of_testBit_eq
    intro i
    rw [Nat.testBit_and, Nat.zero_testBit, Bool.and_eq_false_imp]
    intro hmask
    rw [BitVec.testBit_toNat]
    exact (hbits i).1 (testBit_setWidth_32 hmask)
  · apply Nat.eq_of_testBit_eq
    intro i
    rw [Nat.testBit_or]
    cases hmask : (BitVec.setWidth 32 RHS.One).toNat.testBit i
    · rfl
    · rw [BitVec.testBit_toNat, (hbits i).2 (testBit_setWidth_32 hmask), Bool.true_or]

end Amounts

/-! ## The loop -/

/-- All that the second knows is known by the first. -/
def Implies (K K' : KnownBits w) : Prop := Below K'.Zero K.Zero ∧ Below K'.One K.One

theorem Implies.refl (K : KnownBits w) : Implies K K := ⟨Below.refl _, Below.refl _⟩

theorem Implies.trans {K'' : KnownBits w} (h : Implies K K') (h' : Implies K' K'') :
    Implies K K'' := ⟨h'.1.trans h.1, h'.2.trans h.2⟩

theorem Implies.mem (h : Implies K K') {x : BitVec w} (hx : x ∈ K) : x ∈ K' := by
  rw [mem_iff] at hx ⊢
  exact fun i => ⟨fun hz => (hx i).1 (h.1 i hz), fun ho => (hx i).2 (h.2 i ho)⟩

theorem Implies.no_conflict (h : Implies K K') (hK : K.hasConflict = false) :
    K'.hasConflict = false :=
  not_conflict_of_mem (h.mem (getMinValue_mem hK))

theorem implies_intersectWith (h : Implies K Q) (h' : Implies K' Q) :
    Implies (K.intersectWith K') Q := by
  constructor
  · intro i hi
    rw [intersectWith, BitVec.getLsbD_and, h.1 i hi, h'.1 i hi]
    rfl
  · intro i hi
    rw [intersectWith, BitVec.getLsbD_and, h.2 i hi, h'.2 i hi]
    rfl

theorem intersectWith_left (K K' : KnownBits w) : Implies K (K.intersectWith K') := by
  constructor
  · intro i hi
    rw [intersectWith, BitVec.getLsbD_and, Bool.and_eq_true] at hi
    exact hi.1
  · intro i hi
    rw [intersectWith, BitVec.getLsbD_and, Bool.and_eq_true] at hi
    exact hi.1

theorem intersectWith_right (K K' : KnownBits w) : Implies K' (K.intersectWith K') := by
  constructor
  · intro i hi
    rw [intersectWith, BitVec.getLsbD_and, Bool.and_eq_true] at hi
    exact hi.2
  · intro i hi
    rw [intersectWith, BitVec.getLsbD_and, Bool.and_eq_true] at hi
    exact hi.2

theorem implies_of_isUnknown (h : Q.isUnknown = true) (K : KnownBits w) : Implies K Q := by
  rw [isUnknown, Bool.and_eq_true, beq_iff_eq, beq_iff_eq] at h
  refine ⟨fun i hi => ?_, fun i hi => ?_⟩
  · rw [h.1, BitVec.ofNat_eq_ofNat, BitVec.getLsbD_zero] at hi
    cases hi
  · rw [h.2, BitVec.ofNat_eq_ofNat, BitVec.getLsbD_zero] at hi
    cases hi

section Loop

variable {isPossible : Nat → Bool} {ShiftByConst : Nat → KnownBits w}

theorem shiftLoop_of_known (turns ShiftAmt : Nat) (Known : KnownBits w) :
    Implies Known (shiftLoop isPossible ShiftByConst turns ShiftAmt Known) := by
  induction turns generalizing ShiftAmt Known with
  | zero => exact Implies.refl _
  | succ turns ih =>
    simp only [shiftLoop]
    split_ifs
    · exact ih _ _
    · exact intersectWith_left _ _
    · exact (intersectWith_left _ _).trans (ih _ _)

theorem shiftLoop_of_amount {turns ShiftAmt a : Nat} {Known : KnownBits w}
    (ha : isPossible a = true) (hle : ShiftAmt ≤ a) (hlt : a < ShiftAmt + turns) :
    Implies (ShiftByConst a) (shiftLoop isPossible ShiftByConst turns ShiftAmt Known) := by
  induction turns generalizing ShiftAmt Known with
  | zero => omega
  | succ turns ih =>
    simp only [shiftLoop]
    rcases Nat.eq_or_lt_of_le hle with rfl | hlt'
    · rw [if_neg (by rw [ha]; decide)]
      split_ifs
      · exact intersectWith_right _ _
      · exact (intersectWith_right _ _).trans (shiftLoop_of_known _ _ _)
    · split_ifs with _ hunknown
      · exact ih hlt' (by omega)
      · exact implies_of_isUnknown hunknown _
      · exact ih hlt' (by omega)

theorem shiftLoop_implies {turns ShiftAmt : Nat} {Known : KnownBits w} (hKnown : Implies Known Q)
    (h : ∀ a, ShiftAmt ≤ a → a < ShiftAmt + turns → Implies (ShiftByConst a) Q) :
    Implies (shiftLoop isPossible ShiftByConst turns ShiftAmt Known) Q := by
  induction turns generalizing ShiftAmt Known with
  | zero => exact hKnown
  | succ turns ih =>
    have hnext := implies_intersectWith hKnown (h ShiftAmt (Nat.le_refl _) (by omega))
    have hrest : ∀ a, ShiftAmt + 1 ≤ a → a < ShiftAmt + 1 + turns → Implies (ShiftByConst a) Q :=
      fun a hle hlt => h a (by omega) (by omega)
    simp only [shiftLoop]
    split_ifs
    · exact ih hKnown hrest
    · exact hnext
    · exact ih hnext hrest

end Loop

theorem allZero_no_conflict : (allZero w).hasConflict = false := not_conflict_of_mem mem_allZero

theorem commonOfShifts_no_conflict (RHS : KnownBits v) (ShiftByConst : Nat → KnownBits w)
    (Min Max : Nat) : (commonOfShifts RHS ShiftByConst Min Max).hasConflict = false := by
  simp only [commonOfShifts]
  split_ifs with h
  · exact allZero_no_conflict
  · exact Bool.eq_false_of_not_eq_true h

theorem mem_commonOfShifts {RHS : KnownBits v} {ShiftByConst : Nat → KnownBits w} {Min Max : Nat}
    {s : BitVec v} {x : BitVec w} (hs : s ∈ RHS) (hmin : Min ≤ s.toNat) (hmax : s.toNat ≤ Max)
    (hx : x ∈ ShiftByConst s.toNat) : x ∈ commonOfShifts RHS ShiftByConst Min Max := by
  have hmem : x ∈ shiftLoop (isPossibleAmount RHS) ShiftByConst (Max + 1 - Min) Min
      ⟨BitVec.allOnes w, BitVec.allOnes w⟩ :=
    (shiftLoop_of_amount (isPossibleAmount_of_mem hs) hmin (by omega)).mem hx
  simp only [commonOfShifts]
  rw [not_conflict_of_mem hmem, if_neg Bool.false_ne_true]
  exact hmem

section ByConst

variable {LHS : KnownBits w} {l : BitVec w} {a : Nat}

theorem lshr_mem (hl : l ∈ LHS) (a : Nat) : l >>> a ∈ lshrByConst LHS a := by
  rw [mem_iff] at hl ⊢
  intro i
  simp only [lshrByConst, BitVec.getLsbD_or, BitVec.getLsbD_ushiftRight, Bool.or_eq_true]
  refine ⟨fun h => ?_, (hl (a + i)).2⟩
  rcases h with h | h
  · exact (hl (a + i)).1 h
  · rw [getLsbD_getHighBitsSet, Bool.and_eq_true, decide_eq_true_iff, decide_eq_true_iff] at h
    exact BitVec.getLsbD_of_ge _ _ (by omega)

theorem ashr_mem (hl : l ∈ LHS) (a : Nat) : l.sshiftRight a ∈ ashrByConst LHS a := by
  rw [mem_iff] at hl ⊢
  intro i
  simp only [ashrByConst, BitVec.getLsbD_sshiftRight, BitVec.msb_eq_getLsbD_last]
  by_cases hi : i < w
  · split_ifs
    · simpa [hi] using hl (a + i)
    · simpa [hi] using hl (w - 1)
  · simp [Nat.not_lt.mp hi]

theorem sign_bits_of_fits (ha : a < w) (hfit : SignedFits w (l.toInt * 2 ^ a)) {j : Nat}
    (hlo : w - 1 - a ≤ j) (hj : j < w) : l.getLsbD j = l.msb := by
  have hov : (sshl_ov l a).2 ≠ true := fun h => (sshl_ov_spec ha).overflow.mp h hfit
  rw [sshl_ov, if_neg (Nat.not_le.mpr ha)] at hov
  cases hmsb : l.msb
  · rw [hmsb, Bool.not_false, if_pos rfl] at hov
    have hlead : a + 1 ≤ countl_zero l := by simpa using hov
    exact (le_countl_zero_iff_bits ha).mp hlead j (by omega)
  · rw [hmsb, Bool.not_true, if_neg Bool.false_ne_true] at hov
    have hlead : a + 1 ≤ countl_one l := by simpa using hov
    exact (le_countl_one_iff_bits ha).mp hlead j (by omega) hj

theorem top_bits_of_fits (ha : a < w) (hfit : l.toNat * 2 ^ a < 2 ^ w) {j : Nat}
    (hlo : w - a ≤ j) : l.getLsbD j = false := by
  have hov : (ushl_ov l a).2 ≠ true := fun h =>
    Nat.not_le.mpr hfit ((ushl_ov_spec ha).overflow.mp h)
  rw [ushl_ov, if_neg (Nat.not_le.mpr ha)] at hov
  have hlead : a ≤ countl_zero l := by simpa using hov
  exact (le_countl_zero_iff_bits (Nat.le_of_lt ha)).mp hlead j hlo

theorem msb_shiftLeft_of_fits (ha : a < w) (hfit : SignedFits w (l.toInt * 2 ^ a)) :
    (l <<< a).msb = l.msb := by
  have hbit := sign_bits_of_fits ha hfit (Nat.le_refl _) (by omega)
  rw [← hbit, BitVec.msb_eq_getLsbD_last, BitVec.getLsbD_shiftLeft]
  have hlast : w - 1 < w := by omega
  simp [hlast, show ¬w - 1 < a by omega]

theorem exists_shifted_out {V : BitVec w} (ha : a < w) (h : (ushl_ov V a).2 = true) :
    ∃ j, w - a ≤ j ∧ j < w ∧ V.getLsbD j = true := by
  rw [ushl_ov, if_neg (Nat.not_le.mpr ha), decide_eq_true_iff, ← Nat.not_le,
    le_countl_zero_iff_bits (Nat.le_of_lt ha)] at h
  simp only [not_forall, Bool.not_eq_false] at h
  obtain ⟨j, hlo, hbit⟩ := h
  exact ⟨j, hlo, BitVec.lt_of_getLsbD hbit, hbit⟩

/-- The shift of a number whose flags hold. -/
structure NoPoison (NUW NSW : Bool) (l : BitVec w) (a : Nat) : Prop where
  nuw : NUW = true → l.toNat * 2 ^ a < 2 ^ w
  nsw : NSW = true → SignedFits w (l.toInt * 2 ^ a)

theorem shl_mem {NUW NSW : Bool} (hl : l ∈ LHS) (ha : a < w) (hflags : NoPoison NUW NSW l a) :
    l <<< a ∈ shlByConst NUW NSW LHS a := by
  have hbits := mem_iff.mp hl
  have hplain : l <<< a ∈
      (⟨(ushl_ov LHS.Zero a).1 ||| getLowBitsSet w a, (ushl_ov LHS.One a).1⟩ : KnownBits w) := by
    rw [mem_iff]
    intro i
    simp only [ushl_ov, if_neg (Nat.not_le.mpr ha), BitVec.getLsbD_or, BitVec.getLsbD_shiftLeft,
      getLsbD_getLowBitsSet, Bool.or_eq_true, Bool.and_eq_true]
    refine ⟨fun h => ?_, fun h => ⟨h.1, (hbits _).2 h.2⟩⟩
    rcases h with h | h
    · rw [(hbits _).1 h.2, Bool.and_false]
    · rw [h.2, Bool.not_true, Bool.and_false, Bool.false_and]
  simp only [shlByConst]
  split_ifs with hnsw hzero hone
  · refine mem_makeNonNegative hplain ?_
    have hsign := hflags.nsw hnsw
    rw [msb_shiftLeft_of_fits ha hsign]
    rw [Bool.or_eq_true] at hzero
    rcases hzero with hnuw | hout
    · rw [Bool.and_eq_true, bne_iff_ne] at hnuw
      rw [BitVec.msb_eq_getLsbD_last]
      exact top_bits_of_fits ha (hflags.nuw hnuw.1) (by omega)
    · obtain ⟨j, hlo, hj, hbit⟩ := exists_shifted_out ha hout
      rw [← sign_bits_of_fits ha hsign (by omega) hj]
      exact (hbits j).1 hbit
  · refine mem_makeNegative hplain ?_
    have hsign := hflags.nsw hnsw
    obtain ⟨j, hlo, hj, hbit⟩ := exists_shifted_out ha hone
    rw [msb_shiftLeft_of_fits ha hsign, ← sign_bits_of_fits ha hsign (by omega) hj]
    exact (hbits j).2 hbit
  · exact hplain
  · exact hplain

end ByConst

section Shl

variable {LHS : KnownBits w} {l : BitVec w} {a : Nat} {NUW NSW : Bool}

theorem le_countMaxLeadingZeros (hl : l ∈ LHS) (hn : n ≤ w)
    (h : ∀ j, w - n ≤ j → j < w → l.getLsbD j = false) : n ≤ LHS.countMaxLeadingZeros := by
  refine (le_countl_zero_iff_bits hn).mpr fun j hj => Bool.eq_false_of_not_eq_true fun hone => ?_
  exact Bool.false_ne_true
    ((h j hj (BitVec.lt_of_getLsbD hone)).symm.trans ((mem_iff.mp hl j).2 hone))

theorem le_countMaxLeadingOnes (hl : l ∈ LHS) (hn : n ≤ w)
    (h : ∀ j, w - n ≤ j → j < w → l.getLsbD j = true) : n ≤ LHS.countMaxLeadingOnes := by
  refine (le_countl_zero_iff_bits hn).mpr fun j hj => Bool.eq_false_of_not_eq_true fun hzero => ?_
  exact Bool.false_ne_true
    (((mem_iff.mp hl j).1 hzero).symm.trans (h j hj (BitVec.lt_of_getLsbD hzero)))

theorem le_unsignedPred (h : a = 0 ∨ a + 1 ≤ n) : a ≤ unsignedPred n := by
  unfold unsignedPred
  split_ifs <;> omega

theorem le_limitByFlags (hl : l ∈ LHS) (ha : a < w) (hflags : NoPoison NUW NSW l a) (hM : a ≤ M) :
    a ≤ limitByFlags LHS NUW NSW M := by
  have hnuw : NUW = true → a ≤ LHS.countMaxLeadingZeros := fun h =>
    le_countMaxLeadingZeros hl (Nat.le_of_lt ha) fun j hlo _ =>
      top_bits_of_fits ha (hflags.nuw h) hlo
  have hzeros : NSW = true → l.msb = false → a + 1 ≤ LHS.countMaxLeadingZeros := fun h hmsb =>
    le_countMaxLeadingZeros hl ha fun j hlo hj => by
      rw [sign_bits_of_fits ha (hflags.nsw h) (by omega) hj, hmsb]
  have hones : NSW = true → l.msb = true → a + 1 ≤ LHS.countMaxLeadingOnes := fun h hmsb =>
    le_countMaxLeadingOnes hl ha fun j hlo hj => by
      rw [sign_bits_of_fits ha (hflags.nsw h) (by omega) hj, hmsb]
  have hboth : NUW = true → NSW = true → a = 0 ∨ a + 1 ≤ LHS.countMaxLeadingZeros := by
    intro hu hs
    refine (Nat.eq_zero_or_pos a).imp_right fun hpos => hzeros hs ?_
    rw [BitVec.msb_eq_getLsbD_last]
    exact top_bits_of_fits ha (hflags.nuw hu) (by omega)
  have hsigned : NSW = true →
      a + 1 ≤ max LHS.countMaxLeadingZeros LHS.countMaxLeadingOnes := by
    intro hs
    cases hmsb : l.msb
    · exact le_max_of_le_left (hzeros hs hmsb)
    · exact le_max_of_le_right (hones hs hmsb)
  cases NUW <;> cases NSW <;> simp only [limitByFlags, Bool.and_self, Bool.and_false,
    Bool.false_and, if_true, Bool.false_eq_true, if_false]
  · exact hM
  · exact Nat.le_min.mpr ⟨hM, le_unsignedPred (Or.inr (hsigned rfl))⟩
  · exact Nat.le_min.mpr ⟨hM, hnuw rfl⟩
  · exact Nat.le_min.mpr ⟨Nat.le_min.mpr ⟨Nat.le_min.mpr ⟨hM, le_unsignedPred (hboth rfl rfl)⟩,
      hnuw rfl⟩, le_unsignedPred (Or.inr (hsigned rfl))⟩

theorem limitByFlags_le_of_nuw (LHS : KnownBits w) (NSW : Bool) (M : Nat) :
    limitByFlags LHS true NSW M ≤ LHS.countMaxLeadingZeros := by
  simp only [limitByFlags]
  split_ifs <;> omega

theorem limitByFlags_le_of_nsw (LHS : KnownBits w) (NUW : Bool) (M : Nat) :
    limitByFlags LHS NUW true M ≤
      unsignedPred (max LHS.countMaxLeadingZeros LHS.countMaxLeadingOnes) := by
  simp only [limitByFlags]
  split_ifs <;> omega

/-! ### Amounts of which nothing is known -/

theorem implies_makeNonNegative (K : KnownBits w) : Implies K.makeNonNegative K :=
  ⟨fun i hi => by rw [makeNonNegative, BitVec.getLsbD_or, hi, Bool.true_or], fun _ hi => hi⟩

theorem implies_makeNegative (K : KnownBits w) : Implies K.makeNegative K :=
  ⟨fun _ hi => hi, fun i hi => by rw [makeNegative, BitVec.getLsbD_or, hi, Bool.true_or]⟩

theorem shlByConst_implies (NUW NSW : Bool) (LHS : KnownBits w) (ha : a < w) : Implies (shlByConst NUW NSW LHS a)
    ⟨LHS.Zero <<< a ||| getLowBitsSet w a, LHS.One <<< a⟩ := by
  simp only [shlByConst, ushl_ov, if_neg (Nat.not_le.mpr ha)]
  split_ifs
  · exact implies_makeNonNegative _
  · exact implies_makeNegative _
  · exact Implies.refl _
  · exact Implies.refl _

theorem isNonNegative_makeNonNegative (hw : 0 < w) (K : KnownBits w) :
    K.makeNonNegative.isNonNegative = true := by
  rw [isNonNegative, makeNonNegative, BitVec.msb_or, BitVec.msb_intMin, decide_eq_true hw,
    Bool.or_true]

theorem isNegative_makeNegative (hw : 0 < w) (K : KnownBits w) :
    K.makeNegative.isNegative = true := by
  rw [isNegative, makeNegative, BitVec.msb_or, BitVec.msb_intMin, decide_eq_true hw, Bool.or_true]

theorem countl_zero_of_msb {V : BitVec w} (h : V.msb = true) : countl_zero V = 0 := by
  have hw := BitVec.lt_of_getLsbD ((BitVec.msb_eq_getLsbD_last V).symm.trans h)
  refine Nat.eq_zero_of_not_pos fun hpos => ?_
  have hbit := (le_countl_zero_iff_bits (by omega)).mp hpos (w - 1) (Nat.le_refl _)
  rw [BitVec.msb_eq_getLsbD_last, hbit] at h
  cases h

theorem shlByConst_isNonNegative (ha : a < w) (hsign : LHS.isNonNegative = true) :
    (shlByConst NUW true LHS a).isNonNegative = true := by
  have hclz := countl_zero_of_msb hsign
  rcases Nat.eq_zero_or_pos a with rfl | hpos
  · have hzero := (shlByConst_implies NUW true LHS ha).1 (w - 1)
    rw [isNonNegative, BitVec.msb_eq_getLsbD_last] at hsign ⊢
    refine hzero ?_
    rw [BitVec.shiftLeft_zero, BitVec.getLsbD_or, hsign, Bool.true_or]
  · have hout : (ushl_ov LHS.Zero a).2 = true := by
      rw [ushl_ov, if_neg (Nat.not_le.mpr ha), hclz]
      exact decide_eq_true hpos
    simp only [shlByConst, if_true, hout, Bool.or_true]
    exact isNonNegative_makeNonNegative (Nat.zero_lt_of_lt ha) _

theorem shlByConst_isNegative (ha : a < w) (hconf : LHS.hasConflict = false)
    (hsign : LHS.isNegative = true) (hM : limitByFlags LHS NUW true M = w - 1) :
    (shlByConst NUW true LHS a).isNegative = true := by
  have hclz : countl_zero LHS.One = 0 := countl_zero_of_msb hsign
  rcases Nat.eq_zero_or_pos a with rfl | hpos
  · have hone := (shlByConst_implies NUW true LHS ha).2 (w - 1)
    rw [isNegative, BitVec.msb_eq_getLsbD_last] at hsign ⊢
    refine hone ?_
    change (LHS.One <<< 0).getLsbD (w - 1) = true
    rw [BitVec.shiftLeft_zero, hsign]
  · have hnuw : NUW = false := by
      cases NUW
      · rfl
      · have hle := limitByFlags_le_of_nuw LHS true M
        rw [countMaxLeadingZeros, hclz] at hle
        omega
    have hlead : LHS.countMaxLeadingOnes ≠ 0 := by
      intro h
      have hle : ¬1 ≤ LHS.countMaxLeadingOnes := by omega
      refine hle (le_countMaxLeadingOnes (getMinValue_mem hconf) (by omega) fun j hlo hj => ?_)
      have hlast : j = w - 1 := by omega
      rw [hlast, getMinValue, ← BitVec.msb_eq_getLsbD_last]
      exact hsign
    have hall := limitByFlags_le_of_nsw LHS NUW M
    rw [countMaxLeadingZeros, hclz, Nat.zero_max, unsignedPred, if_neg hlead, hM,
      countMaxLeadingOnes] at hall
    have hkept : (ushl_ov LHS.Zero a).2 = false := by
      rw [ushl_ov, if_neg (Nat.not_le.mpr ha)]
      exact decide_eq_false (by omega)
    have hout : (ushl_ov LHS.One a).2 = true := by
      rw [ushl_ov, if_neg (Nat.not_le.mpr ha), hclz]
      exact decide_eq_true hpos
    simp only [shlByConst, if_true, hkept, hout, hnuw, Bool.false_and, Bool.or_false,
      Bool.false_eq_true, if_false]
    exact isNegative_makeNegative (Nat.zero_lt_of_lt ha) _

theorem implies_ite_nonNegative {c : Bool} (h : Implies K Q)
    (hc : c = true → K.isNonNegative = true) : Implies K (if c then Q.makeNonNegative else Q) := by
  split_ifs with hif
  · exact ⟨below_or h.1 (below_intMin (hc hif)), h.2⟩
  · exact h

theorem implies_ite_negative {c : Bool} (h : Implies K Q) (hc : c = true → K.isNegative = true) :
    Implies K (if c then Q.makeNegative else Q) := by
  split_ifs with hif
  · exact ⟨h.1, below_or h.2 (below_intMin (hc hif))⟩
  · exact h

theorem trailing_zeros_below (ha : a < w) :
    Below (getLowBitsSet w LHS.countMinTrailingZeros) (shlByConst NUW NSW LHS a).Zero := by
  intro i hi
  rw [getLsbD_getLowBitsSet, Bool.and_eq_true, decide_eq_true_iff, decide_eq_true_iff] at hi
  refine (shlByConst_implies NUW NSW LHS ha).1 i ?_
  have hlow := (le_countr_one_iff (v := LHS.Zero) (countr_zero_le _)).mp (Nat.le_refl _)
  rw [BitVec.getLsbD_or, BitVec.getLsbD_shiftLeft, getLsbD_getLowBitsSet, decide_eq_true hi.1]
  by_cases hia : i < a
  · rw [decide_eq_true hia, Bool.and_self, Bool.or_true]
  · rw [hlow (i - a) (Nat.lt_of_le_of_lt (Nat.sub_le _ _) hi.2), decide_eq_false hia]
    rfl

theorem shlByConst_implies_any (ha : a < w) (hconf : LHS.hasConflict = false)
    (hM : limitByFlags LHS NUW NSW M = w - 1) :
    Implies (shlByConst NUW NSW LHS a) (shlOfAnyAmount NSW LHS) := by
  have hzeros : Implies (shlByConst NUW NSW LHS a)
      ⟨getLowBitsSet w LHS.countMinTrailingZeros, 0⟩ :=
    ⟨trailing_zeros_below ha, fun i hi => by
      rw [BitVec.ofNat_eq_ofNat, BitVec.getLsbD_zero] at hi
      cases hi⟩
  have hall : LHS.isAllOnes = true → (shlByConst NUW NSW LHS a).isNegative = true := by
    intro h
    rw [isAllOnes, beq_iff_eq] at h
    have hone := (shlByConst_implies NUW NSW LHS ha).2 (w - 1)
    rw [isNegative, BitVec.msb_eq_getLsbD_last]
    refine hone ?_
    rw [h, BitVec.getLsbD_shiftLeft, BitVec.getLsbD_allOnes]
    simp only [Bool.and_eq_true, Bool.not_eq_true', decide_eq_true_iff, decide_eq_false_iff_not]
    omega
  have hfirst := implies_ite_negative hzeros hall
  cases NSW
  · exact hfirst
  · exact implies_ite_negative
      (implies_ite_nonNegative hfirst (shlByConst_isNonNegative ha))
      fun hneg => shlByConst_isNegative ha hconf hneg hM

/-- Without a least amount the one bits of the amount are not known, and the shift by zero is
possible. -/
theorem isPossibleAmount_zero {RHS : KnownBits v} (hw : 0 < w)
    (h : getMinShiftAmount RHS w ShAmtNonZero = 0) : isPossibleAmount RHS 0 = true := by
  simp only [getMinShiftAmount, getLimitedValue_eq] at h
  have hone : RHS.One = 0 := by
    apply BitVec.eq_of_toNat_eq
    rw [BitVec.ofNat_eq_ofNat, BitVec.toNat_ofNat, Nat.zero_mod]
    rw [getMinValue] at h
    split_ifs at h
    omega
  rw [isPossibleAmount, hone]
  simp

theorem shlByConst_zero_no_conflict (hw : 0 < w) (hconf : LHS.hasConflict = false) :
    (shlByConst NUW NSW LHS 0).hasConflict = false := by
  refine not_conflict_of_mem (shl_mem (getMinValue_mem hconf) hw ⟨fun _ => ?_, fun _ => ?_⟩)
  · rw [Nat.pow_zero, Nat.mul_one]
    exact BitVec.isLt _
  · rw [pow_zero, Int.mul_one]
    exact Words.toInt_bounds hw _

theorem commonOfShifts_implies_any {RHS : KnownBits v} (hw : 0 < w)
    (hconf : LHS.hasConflict = false)
    (h : isAnyAmount w (getMinShiftAmount RHS w ShAmtNonZero) (limitByFlags LHS NUW NSW M) = true) :
    Implies (commonOfShifts RHS (shlByConst NUW NSW LHS) (getMinShiftAmount RHS w ShAmtNonZero)
      (limitByFlags LHS NUW NSW M)) (shlOfAnyAmount NSW LHS) := by
  rw [isAnyAmount, Bool.and_eq_true, Bool.and_eq_true, beq_iff_eq, beq_iff_eq] at h
  obtain ⟨⟨hmin, hmax⟩, _⟩ := h
  have hpossible := isPossibleAmount_zero hw hmin
  have hloop : (shiftLoop (isPossibleAmount RHS) (shlByConst NUW NSW LHS) (w - 1 + 1 - 0) 0
      ⟨BitVec.allOnes w, BitVec.allOnes w⟩).hasConflict = false :=
    (shiftLoop_of_amount hpossible (Nat.le_refl 0) (by omega)).no_conflict
      (shlByConst_zero_no_conflict hw hconf)
  simp only [commonOfShifts]
  rw [hmin, hmax, hloop, if_neg Bool.false_ne_true]
  refine shiftLoop_implies ⟨?_, ?_⟩ fun a _ hlt =>
    shlByConst_implies_any (by omega) hconf hmax
  · exact below_of_lt fun i hi _ => by rw [BitVec.getLsbD_allOnes, decide_eq_true hi]
  · exact below_of_lt fun i hi _ => by rw [BitVec.getLsbD_allOnes, decide_eq_true hi]

theorem no_conflict_of_one_eq_zero (h : K.One = 0) : K.hasConflict = false := by
  rw [hasConflict, h]
  simp

theorem shlOfUnknown_no_conflict (Min : Nat) :
    (shlOfUnknown w NUW NSW Min).hasConflict = false := by
  simp only [shlOfUnknown]
  split_ifs
  · exact no_conflict_of_one_eq_zero rfl
  · exact no_conflict_of_one_eq_zero rfl

theorem mem_shlOfUnknown {Min : Nat} (l : BitVec w) (ha : a < w) (hmin : Min ≤ a)
    (hflags : NoPoison NUW NSW l a) : l <<< a ∈ shlOfUnknown w NUW NSW Min := by
  have hlow : l <<< a ∈ (⟨getLowBitsSet w Min, 0⟩ : KnownBits w) := by
    rw [mem_iff]
    intro i
    rw [getLsbD_getLowBitsSet, BitVec.getLsbD_shiftLeft]
    refine ⟨fun h => ?_, fun h => ?_⟩
    · rw [Bool.and_eq_true, decide_eq_true_iff, decide_eq_true_iff] at h
      rw [decide_eq_true (Nat.lt_of_lt_of_le h.2 hmin), Bool.not_true, Bool.and_false,
        Bool.false_and]
    · rw [BitVec.ofNat_eq_ofNat, BitVec.getLsbD_zero] at h
      cases h
  simp only [shlOfUnknown]
  split_ifs with h
  · rw [Bool.and_eq_true, Bool.and_eq_true, bne_iff_ne] at h
    refine mem_makeNonNegative hlow ?_
    rw [msb_shiftLeft_of_fits ha (hflags.nsw h.1.2), BitVec.msb_eq_getLsbD_last]
    exact top_bits_of_fits ha (hflags.nuw h.1.1) (by omega)
  · exact hlow

theorem width_pos_of_known (h : ¬K.isUnknown = true) : 0 < w := by
  rcases Nat.eq_zero_or_pos w with rfl | hw
  · refine absurd ?_ h
    rw [isUnknown, BitVec.eq_nil K.Zero, BitVec.eq_nil K.One]
    rfl
  · exact hw

theorem shl_sound {RHS : KnownBits v} (hfits : AmountFits w v) (hconf : LHS.hasConflict = false)
    (ShAmtNonZero : Bool) :
    ∃ K, shl LHS RHS NUW NSW ShAmtNonZero = some K ∧ K.hasConflict = false ∧
      ∀ l ∈ LHS, ∀ s ∈ RHS, s.toNat < w → (ShAmtNonZero = true → s ≠ 0) →
        NoPoison NUW NSW l s.toNat → l <<< s.toNat ∈ K := by
  by_cases hunknown : LHS.isUnknown = true
  · refine ⟨_, if_pos hunknown, ?_⟩
    exact ⟨shlOfUnknown_no_conflict _, fun l _ s hs hsw hnz hflags =>
      mem_shlOfUnknown l hsw (getMinShiftAmount_le hs hsw hnz) hflags⟩
  · have hw := width_pos_of_known hunknown
    obtain ⟨M, hM, hlt, hle⟩ := getMaxShiftAmount_spec hw hfits RHS
    have hslow : ∀ l ∈ LHS, ∀ s ∈ RHS, s.toNat < w → (ShAmtNonZero = true → s ≠ 0) →
        NoPoison NUW NSW l s.toNat → l <<< s.toNat ∈ commonOfShifts RHS (shlByConst NUW NSW LHS)
          (getMinShiftAmount RHS w ShAmtNonZero) (limitByFlags LHS NUW NSW M) :=
      fun l hl s hs hsw hnz hflags => mem_commonOfShifts hs (getMinShiftAmount_le hs hsw hnz)
        (le_limitByFlags hl hsw hflags (hle s hs hsw)) (shl_mem hl hsw hflags)
    simp only [shl, if_neg hunknown, hM, Option.bind_some, hconf, Bool.false_eq_true, if_false]
    split_ifs with hany
    · have himplies := commonOfShifts_implies_any hw hconf hany
      exact ⟨_, rfl, himplies.no_conflict (commonOfShifts_no_conflict _ _ _ _),
        fun l hl s hs hsw hnz hflags => himplies.mem (hslow l hl s hs hsw hnz hflags)⟩
    · exact ⟨_, rfl, commonOfShifts_no_conflict _ _ _ _, hslow⟩

end Shl

section Shr

variable {LHS : KnownBits w} {RHS : KnownBits v}

theorem lshr_sound (hfits : AmountFits w v) (ShAmtNonZero : Bool) :
    ∃ K, lshr LHS RHS ShAmtNonZero = some K ∧ K.hasConflict = false ∧
      ∀ l ∈ LHS, ∀ s ∈ RHS, s.toNat < w → (ShAmtNonZero = true → s ≠ 0) → l >>> s.toNat ∈ K := by
  unfold lshr
  simp only
  split_ifs with hunknown
  · refine ⟨_, rfl, no_conflict_of_one_eq_zero rfl, fun l _ s hs hsw hnz => mem_iff.mpr fun i => ?_⟩
    have hmin := getMinShiftAmount_le hs hsw hnz
    rw [getLsbD_getHighBitsSet, BitVec.getLsbD_ushiftRight]
    refine ⟨fun h => ?_, fun h => ?_⟩
    · rw [Bool.and_eq_true, decide_eq_true_iff, decide_eq_true_iff] at h
      exact BitVec.getLsbD_of_ge _ _ (by omega)
    · rw [BitVec.ofNat_eq_ofNat, BitVec.getLsbD_zero] at h
      cases h
  · obtain ⟨M, hM, _, hle⟩ := getMaxShiftAmount_spec (width_pos_of_known hunknown) hfits RHS
    refine ⟨_, by rw [hM, Option.map_some], commonOfShifts_no_conflict _ _ _ _,
      fun l hl s hs hsw hnz => ?_⟩
    exact mem_commonOfShifts hs (getMinShiftAmount_le hs hsw hnz) (hle s hs hsw) (lshr_mem hl _)

theorem ashr_sound (hfits : AmountFits w v) (ShAmtNonZero : Bool) :
    ∃ K, ashr LHS RHS ShAmtNonZero = some K ∧ K.hasConflict = false ∧
      ∀ l ∈ LHS, ∀ s ∈ RHS, s.toNat < w → (ShAmtNonZero = true → s ≠ 0) →
        l.sshiftRight s.toNat ∈ K := by
  unfold ashr
  simp only
  split_ifs with hunknown hmin
  · refine ⟨_, rfl, allZero_no_conflict, fun l _ s hs hsw hnz => ?_⟩
    have hle := getMinShiftAmount_le hs hsw hnz
    omega
  · exact ⟨_, rfl, no_conflict_of_one_eq_zero rfl, fun l _ s _ _ _ => mem_unknown _⟩
  · obtain ⟨M, hM, _, hle⟩ := getMaxShiftAmount_spec (width_pos_of_known hunknown) hfits RHS
    refine ⟨_, by rw [hM, Option.map_some], commonOfShifts_no_conflict _ _ _ _,
      fun l hl s hs hsw hnz => ?_⟩
    exact mem_commonOfShifts hs (getMinShiftAmount_le hs hsw hnz) (hle s hs hsw) (ashr_mem hl _)

end Shr

end SmlnjLlvm.KnownBits
