import SmlnjLlvm.Library.BitOrder
import SmlnjLlvm.Support.APIntOps

/-!
# Known bits

`KnownBits` records the bits of a word that are known to be zero and those that
are known to be one. A word is a member when it agrees with both; a bit in both
masks is a conflict, and then there are no members. An assertion that fails is no
result.
-/

namespace SmlnjLlvm

open Support APIntOps BitOrder Words

structure KnownBits (w : Nat) where
  Zero : BitVec w
  One : BitVec w
  deriving DecidableEq, Repr

namespace KnownBits

variable {w : Nat}

/-- `KnownBits(unsigned BitWidth)` -/
def unknown (w : Nat) : KnownBits w := ⟨0, 0⟩

def hasConflict (K : KnownBits w) : Bool := K.Zero &&& K.One != 0

def isUnknown (K : KnownBits w) : Bool := K.Zero == 0 && K.One == 0

/-- `Zero.isAllOnes()`, without the assertion that the operand has no conflict. -/
def isZero (K : KnownBits w) : Bool := K.Zero == BitVec.allOnes w

def isAllOnes (K : KnownBits w) : Bool := K.One == BitVec.allOnes w

/-- What `setAllZero` leaves in any object. -/
def allZero (w : Nat) : KnownBits w := ⟨BitVec.allOnes w, 0⟩

def isNegative (K : KnownBits w) : Bool := K.One.msb

def isNonNegative (K : KnownBits w) : Bool := K.Zero.msb

def isStrictlyPositive (K : KnownBits w) : Bool := K.Zero.msb && K.One != 0

def makeNegative (K : KnownBits w) : KnownBits w := { K with One := K.One ||| BitVec.intMin w }

def makeNonNegative (K : KnownBits w) : KnownBits w := { K with Zero := K.Zero ||| BitVec.intMin w }

def getMinValue (K : KnownBits w) : BitVec w := K.One

def getSignedMinValue (K : KnownBits w) : BitVec w :=
  if !K.Zero.msb then K.One ||| BitVec.intMin w else K.One

def getMaxValue (K : KnownBits w) : BitVec w := ~~~K.Zero

def getSignedMaxValue (K : KnownBits w) : BitVec w :=
  if !K.One.msb then ~~~K.Zero &&& ~~~BitVec.intMin w else ~~~K.Zero

def makeConstant (C : BitVec w) : KnownBits w := ⟨~~~C, C⟩

def intersectWith (K RHS : KnownBits w) : KnownBits w := ⟨K.Zero &&& RHS.Zero, K.One &&& RHS.One⟩

def unionWith (K RHS : KnownBits w) : KnownBits w := ⟨K.Zero ||| RHS.Zero, K.One ||| RHS.One⟩

/-- `operator&=` -/
def and (K RHS : KnownBits w) : KnownBits w := ⟨K.Zero ||| RHS.Zero, K.One &&& RHS.One⟩

/-- `operator|=` -/
def or (K RHS : KnownBits w) : KnownBits w := ⟨K.Zero &&& RHS.Zero, K.One ||| RHS.One⟩

/-- `operator^=` -/
def xor (K RHS : KnownBits w) : KnownBits w :=
  ⟨K.Zero &&& RHS.Zero ||| K.One &&& RHS.One, K.Zero &&& RHS.One ||| K.One &&& RHS.Zero⟩

def countMinTrailingZeros (K : KnownBits w) : Nat := countr_one K.Zero

def countMaxTrailingZeros (K : KnownBits w) : Nat := countr_zero K.One

def countMinLeadingZeros (K : KnownBits w) : Nat := countl_one K.Zero

def countMaxLeadingZeros (K : KnownBits w) : Nat := countl_zero K.One

def countMaxLeadingOnes (K : KnownBits w) : Nat := countl_zero K.Zero

/-! ## Members -/

instance : Membership (BitVec w) (KnownBits w) :=
  ⟨fun K v => v &&& K.Zero = 0 ∧ ~~~v &&& K.One = 0⟩

instance (v : BitVec w) (K : KnownBits w) : Decidable (v ∈ K) :=
  inferInstanceAs (Decidable (_ ∧ _))

theorem mem_def {v : BitVec w} {K : KnownBits w} :
    v ∈ K ↔ v &&& K.Zero = 0 ∧ ~~~v &&& K.One = 0 := Iff.rfl

theorem and_eq_zero_iff {x y : BitVec w} :
    x &&& y = 0 ↔ ∀ i, y.getLsbD i = true → x.getLsbD i = false := by
  constructor
  · intro h i hy
    have hbit := congrArg (fun v : BitVec w => v.getLsbD i) h
    simpa [hy] using hbit
  · intro h
    apply BitVec.eq_of_getLsbD_eq
    intro i _
    have hi := h i
    cases hy : y.getLsbD i <;> simp_all

theorem mem_iff {v : BitVec w} {K : KnownBits w} :
    v ∈ K ↔ ∀ i, (K.Zero.getLsbD i = true → v.getLsbD i = false) ∧
      (K.One.getLsbD i = true → v.getLsbD i = true) := by
  rw [mem_def, and_eq_zero_iff, and_eq_zero_iff, ← forall_and]
  apply forall_congr'
  intro i
  refine and_congr_right fun _ => imp_congr_right fun hone => ?_
  rw [BitVec.getLsbD_not, decide_eq_true (BitVec.lt_of_getLsbD hone), Bool.true_and,
    Bool.not_eq_false']

theorem mem_iff_below {v : BitVec w} {K : KnownBits w} :
    v ∈ K ↔ Below K.One v ∧ Below v (~~~K.Zero) := by
  rw [mem_iff, forall_and, and_comm]
  refine and_congr_right fun _ => ⟨fun h => ?_, fun h i hz => ?_⟩
  · apply below_of_lt
    intro i hi hv
    rw [BitVec.getLsbD_not, decide_eq_true hi, Bool.true_and, Bool.not_eq_true']
    exact Bool.eq_false_of_not_eq_true fun hz => by simp [h i hz] at hv
  · refine Bool.eq_false_of_not_eq_true fun hv => ?_
    have hnot := h i hv
    simp [hz] at hnot

theorem hasConflict_eq_false_iff {K : KnownBits w} :
    K.hasConflict = false ↔ ∀ i, K.One.getLsbD i = true → K.Zero.getLsbD i = false := by
  rw [hasConflict, bne_eq_false_iff_eq, and_eq_zero_iff]

theorem not_conflict_of_mem {v : BitVec w} {K : KnownBits w} (h : v ∈ K) :
    K.hasConflict = false := by
  rw [hasConflict_eq_false_iff]
  intro i hone
  refine Bool.eq_false_of_not_eq_true fun hzero => ?_
  have hbits := mem_iff.mp h i
  rw [hbits.1 hzero] at hbits
  exact Bool.false_ne_true (hbits.2 hone)

theorem below_of_not_conflict {K : KnownBits w} (h : K.hasConflict = false) :
    Below K.One (~~~K.Zero) := by
  apply below_of_lt
  intro i hi hone
  rw [BitVec.getLsbD_not, decide_eq_true hi, hasConflict_eq_false_iff.mp h i hone]
  rfl

theorem getMinValue_mem {K : KnownBits w} (h : K.hasConflict = false) : K.getMinValue ∈ K :=
  mem_iff_below.mpr ⟨Below.refl _, below_of_not_conflict h⟩

theorem getMaxValue_mem {K : KnownBits w} (h : K.hasConflict = false) : K.getMaxValue ∈ K :=
  mem_iff_below.mpr ⟨below_of_not_conflict h, Below.refl _⟩

theorem getMinValue_le {v : BitVec w} {K : KnownBits w} (h : v ∈ K) :
    K.getMinValue.toNat ≤ v.toNat := (mem_iff_below.mp h).1.toNat_le

theorem le_getMaxValue {v : BitVec w} {K : KnownBits w} (h : v ∈ K) :
    v.toNat ≤ K.getMaxValue.toNat := (mem_iff_below.mp h).2.toNat_le

theorem getLsbD_of_known {K : KnownBits w} {v : BitVec w} {i : Nat} (hv : v ∈ K)
    (h : (K.Zero.getLsbD i || K.One.getLsbD i) = true) : v.getLsbD i = K.One.getLsbD i := by
  have hbits := mem_iff.mp hv i
  cases hone : K.One.getLsbD i
  · rw [hone, Bool.or_false] at h
    exact hbits.1 h
  · exact hbits.2 hone

theorem mem_unknown (v : BitVec w) : v ∈ unknown w := by
  rw [mem_iff]
  intro i
  simp [unknown]

theorem mem_allZero : (0 : BitVec w) ∈ allZero w := by
  rw [mem_iff]
  intro i
  simp [allZero]

theorem mem_makeConstant {v C : BitVec w} : v ∈ makeConstant C ↔ v = C := by
  rw [mem_iff]
  constructor
  · intro h
    apply BitVec.eq_of_getLsbD_eq
    intro i hi
    obtain ⟨hzero, hone⟩ := h i
    cases hC : C.getLsbD i
    · refine hzero ?_
      rw [makeConstant, BitVec.getLsbD_not, decide_eq_true hi, hC]
      rfl
    · exact hone hC
  · rintro rfl i
    refine ⟨fun h => ?_, fun h => h⟩
    rw [makeConstant, BitVec.getLsbD_not, Bool.and_eq_true] at h
    exact Bool.not_eq_true' _ ▸ h.2

theorem mem_intersectWith_left {v : BitVec w} {K : KnownBits w} (RHS : KnownBits w) (h : v ∈ K) :
    v ∈ K.intersectWith RHS := by
  rw [mem_iff] at h ⊢
  intro i
  simp only [intersectWith, BitVec.getLsbD_and, Bool.and_eq_true]
  exact ⟨fun hz => (h i).1 hz.1, fun ho => (h i).2 ho.1⟩

theorem mem_intersectWith_right {v : BitVec w} (K : KnownBits w) {RHS : KnownBits w}
    (h : v ∈ RHS) : v ∈ K.intersectWith RHS := by
  rw [mem_iff] at h ⊢
  intro i
  simp only [intersectWith, BitVec.getLsbD_and, Bool.and_eq_true]
  exact ⟨fun hz => (h i).1 hz.2, fun ho => (h i).2 ho.2⟩

section Bitwise

variable {x y : BitVec w} {K RHS : KnownBits w}

theorem mem_and (hx : x ∈ K) (hy : y ∈ RHS) : x &&& y ∈ K.and RHS := by
  refine mem_iff.mpr fun i => ?_
  obtain ⟨hzero, hone⟩ := mem_iff.mp hx i
  obtain ⟨hzero', hone'⟩ := mem_iff.mp hy i
  simp only [and, BitVec.getLsbD_and, BitVec.getLsbD_or]
  grind

theorem mem_or (hx : x ∈ K) (hy : y ∈ RHS) : x ||| y ∈ K.or RHS := by
  refine mem_iff.mpr fun i => ?_
  obtain ⟨hzero, hone⟩ := mem_iff.mp hx i
  obtain ⟨hzero', hone'⟩ := mem_iff.mp hy i
  simp only [or, BitVec.getLsbD_and, BitVec.getLsbD_or]
  grind

theorem mem_xor (hx : x ∈ K) (hy : y ∈ RHS) : x ^^^ y ∈ K.xor RHS := by
  refine mem_iff.mpr fun i => ?_
  obtain ⟨hzero, hone⟩ := mem_iff.mp hx i
  obtain ⟨hzero', hone'⟩ := mem_iff.mp hy i
  simp only [xor, BitVec.getLsbD_and, BitVec.getLsbD_or, BitVec.getLsbD_xor]
  grind

end Bitwise

theorem msb_of_isNegative {v : BitVec w} {K : KnownBits w} (h : v ∈ K)
    (hneg : K.isNegative = true) : v.msb = true := by
  rw [isNegative, BitVec.msb_eq_getLsbD_last] at hneg
  rw [BitVec.msb_eq_getLsbD_last]
  exact (mem_iff.mp h (w - 1)).2 hneg

theorem msb_of_isNonNegative {v : BitVec w} {K : KnownBits w} (h : v ∈ K)
    (hpos : K.isNonNegative = true) : v.msb = false := by
  rw [isNonNegative, BitVec.msb_eq_getLsbD_last] at hpos
  rw [BitVec.msb_eq_getLsbD_last]
  exact (mem_iff.mp h (w - 1)).1 hpos

theorem getLsbD_intMin_eq {i : Nat} (h : (BitVec.intMin w).getLsbD i = true) : i = w - 1 := by
  rw [BitVec.getLsbD_intMin, decide_eq_true_iff] at h
  omega

theorem width_pos_of_msb {v : BitVec w} (h : v.msb = true) : 0 < w := by
  rcases Nat.eq_zero_or_pos w with rfl | hw
  · rw [BitVec.eq_nil v] at h
    exact absurd h (by decide)
  · exact hw

theorem below_intMin {z : BitVec w} (h : z.msb = true) : Below (BitVec.intMin w) z := by
  intro i hi
  rw [getLsbD_intMin_eq hi, ← BitVec.msb_eq_getLsbD_last]
  exact h

theorem getSignedMinValue_mem {K : KnownBits w} (h : K.hasConflict = false) :
    K.getSignedMinValue ∈ K := by
  obtain ⟨hlow, hhigh⟩ := mem_iff_below.mp (getMinValue_mem h)
  unfold getSignedMinValue
  split_ifs with hzero
  · refine mem_iff_below.mpr ⟨fun i hi => by rw [BitVec.getLsbD_or, hi, Bool.true_or],
      below_or hhigh fun i hi => ?_⟩
    have hlast := getLsbD_intMin_eq hi
    have hlt := BitVec.lt_of_getLsbD hi
    rw [Bool.not_eq_true', BitVec.msb_eq_getLsbD_last, ← hlast] at hzero
    rw [BitVec.getLsbD_not, decide_eq_true hlt, hzero]
    rfl
  · exact getMinValue_mem h

theorem getSignedMaxValue_mem {K : KnownBits w} (h : K.hasConflict = false) :
    K.getSignedMaxValue ∈ K := by
  have hmem := mem_iff.mp (getMaxValue_mem h)
  unfold getSignedMaxValue
  split_ifs with hone
  · refine mem_iff.mpr fun i => ⟨fun hzero => ?_, fun hone' => ?_⟩
    · rw [BitVec.getLsbD_and, show (~~~K.Zero).getLsbD i = false from (hmem i).1 hzero,
        Bool.false_and]
    · rw [BitVec.getLsbD_and, show (~~~K.Zero).getLsbD i = true from (hmem i).2 hone',
        BitVec.getLsbD_not, decide_eq_true (BitVec.lt_of_getLsbD hone'), Bool.true_and,
        Bool.true_and, Bool.not_eq_true']
      refine Bool.eq_false_of_not_eq_true fun hsign => ?_
      rw [Bool.not_eq_true', BitVec.msb_eq_getLsbD_last, ← getLsbD_intMin_eq hsign, hone'] at hone
      cases hone
  · exact getMaxValue_mem h

theorem getSignedMinValue_le (hw : 0 < w) {v : BitVec w} {K : KnownBits w} (h : v ∈ K) :
    K.getSignedMinValue.toInt ≤ v.toInt := by
  have hmin := (mem_iff_below.mp h).1
  unfold getSignedMinValue
  split_ifs with hzero
  · have hsign : (K.One ||| BitVec.intMin w).msb = true := by
      rw [BitVec.msb_or, BitVec.msb_intMin, decide_eq_true hw, Bool.or_true]
    refine toInt_le_of_msb hw (fun _ => hsign) fun heq => ?_
    exact (below_or hmin (below_intMin (heq.symm.trans hsign))).toNat_le
  · have hv : v.msb = false := msb_of_isNonNegative h (by simpa [isNonNegative] using hzero)
    refine toInt_le_of_msb hw (fun hneg => ?_) fun _ => hmin.toNat_le
    rw [hv] at hneg
    cases hneg

theorem le_getSignedMaxValue (hw : 0 < w) {v : BitVec w} {K : KnownBits w} (h : v ∈ K) :
    v.toInt ≤ K.getSignedMaxValue.toInt := by
  have hmax := (mem_iff_below.mp h).2
  unfold getSignedMaxValue
  split_ifs with hone
  · have hsign : (~~~K.Zero &&& ~~~BitVec.intMin w).msb = false := by
      rw [BitVec.msb_and, BitVec.msb_not, BitVec.msb_not, BitVec.msb_intMin, decide_eq_true hw,
        Bool.not_true, Bool.and_false, Bool.and_false]
    refine toInt_le_of_msb hw (fun hneg => ?_) fun heq => ?_
    · rw [hsign] at hneg
      cases hneg
    · refine Below.toNat_le fun i hi => ?_
      rw [BitVec.getLsbD_and, hmax i hi, BitVec.getLsbD_not,
        decide_eq_true (BitVec.lt_of_getLsbD hi), Bool.true_and, Bool.true_and, Bool.not_eq_true']
      refine Bool.eq_false_of_not_eq_true fun hlast => ?_
      rw [getLsbD_intMin_eq hlast, ← BitVec.msb_eq_getLsbD_last, heq, hsign] at hi
      cases hi
  · have hv : v.msb = true := msb_of_isNegative h (by simpa [isNegative] using hone)
    exact toInt_le_of_msb hw (fun _ => hv) fun _ => hmax.toNat_le

theorem mem_makeNegative {v : BitVec w} {K : KnownBits w} (h : v ∈ K) (hv : v.msb = true) :
    v ∈ K.makeNegative := by
  rw [mem_iff] at h ⊢
  intro i
  refine ⟨(h i).1, fun hone => ?_⟩
  rw [makeNegative, BitVec.getLsbD_or, Bool.or_eq_true] at hone
  rcases hone with hone | hsign
  · exact (h i).2 hone
  · rw [getLsbD_intMin_eq hsign, ← BitVec.msb_eq_getLsbD_last]
    exact hv

theorem mem_makeNonNegative {v : BitVec w} {K : KnownBits w} (h : v ∈ K) (hv : v.msb = false) :
    v ∈ K.makeNonNegative := by
  rw [mem_iff] at h ⊢
  intro i
  refine ⟨fun hzero => ?_, (h i).2⟩
  rw [makeNonNegative, BitVec.getLsbD_or, Bool.or_eq_true] at hzero
  rcases hzero with hzero | hsign
  · exact (h i).1 hzero
  · rw [getLsbD_intMin_eq hsign, ← BitVec.msb_eq_getLsbD_last]
    exact hv

theorem makeNegative_no_conflict {K : KnownBits w} (h : K.hasConflict = false)
    (hsign : K.isNonNegative = false) : K.makeNegative.hasConflict = false := by
  rw [hasConflict_eq_false_iff] at h ⊢
  intro i hone
  rw [makeNegative, BitVec.getLsbD_or, Bool.or_eq_true] at hone
  rcases hone with hone | hone
  · exact h i hone
  · rw [getLsbD_intMin_eq hone, makeNegative, ← BitVec.msb_eq_getLsbD_last]
    exact hsign

theorem makeNonNegative_no_conflict {K : KnownBits w} (h : K.hasConflict = false)
    (hsign : K.isNegative = false) : K.makeNonNegative.hasConflict = false := by
  rw [hasConflict_eq_false_iff] at h ⊢
  intro i hone
  rw [makeNonNegative, BitVec.getLsbD_or, h i hone, Bool.false_or]
  refine Bool.eq_false_of_not_eq_true fun hbit => ?_
  rw [isNegative, BitVec.msb_eq_getLsbD_last, ← getLsbD_intMin_eq hbit] at hsign
  exact Bool.false_ne_true (hsign.symm.trans hone)

end KnownBits

end SmlnjLlvm
