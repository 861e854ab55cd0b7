import SmlnjLlvm.IR.RangeBounds
import SmlnjLlvm.Support.APIntOps

/-!
# Overflow over two ranges

Whether an operation overflows on every pair of elements, on no pair or on some
is read off the least and the greatest exact result. Both are results of a pair
of ends, and the comparisons of the ends are rearranged so that they do not
overflow themselves.
-/

namespace SmlnjLlvm.ConstantRange

open Words APIntOps

inductive OverflowResult where
  | AlwaysOverflowsLow
  | AlwaysOverflowsHigh
  | MayOverflow
  | NeverOverflows
deriving DecidableEq, Repr

variable {w : Nat}

def unsignedAddMayOverflow (R Other : ConstantRange w) : OverflowResult :=
  if R.isEmptySet || Other.isEmptySet then .MayOverflow
  else if (~~~Other.getUnsignedMin).ult R.getUnsignedMin then .AlwaysOverflowsHigh
  else if (~~~Other.getUnsignedMax).ult R.getUnsignedMax then .MayOverflow
  else .NeverOverflows

def signedAddMayOverflow (R Other : ConstantRange w) : OverflowResult :=
  let Min := R.getSignedMin
  let Max := R.getSignedMax
  let OtherMin := Other.getSignedMin
  let OtherMax := Other.getSignedMax
  let SignedMin := BitVec.intMin w
  let SignedMax := BitVec.intMax w
  if R.isEmptySet || Other.isEmptySet then .MayOverflow
  else if !Min.msb && !OtherMin.msb && (SignedMax - OtherMin).slt Min then .AlwaysOverflowsHigh
  else if Max.msb && OtherMax.msb && Max.slt (SignedMin - OtherMax) then .AlwaysOverflowsLow
  else if !Max.msb && !OtherMax.msb && (SignedMax - OtherMax).slt Max then .MayOverflow
  else if Min.msb && OtherMin.msb && Min.slt (SignedMin - OtherMin) then .MayOverflow
  else .NeverOverflows

def unsignedSubMayOverflow (R Other : ConstantRange w) : OverflowResult :=
  if R.isEmptySet || Other.isEmptySet then .MayOverflow
  else if R.getUnsignedMax.ult Other.getUnsignedMin then .AlwaysOverflowsLow
  else if R.getUnsignedMin.ult Other.getUnsignedMax then .MayOverflow
  else .NeverOverflows

def signedSubMayOverflow (R Other : ConstantRange w) : OverflowResult :=
  let Min := R.getSignedMin
  let Max := R.getSignedMax
  let OtherMin := Other.getSignedMin
  let OtherMax := Other.getSignedMax
  let SignedMin := BitVec.intMin w
  let SignedMax := BitVec.intMax w
  if R.isEmptySet || Other.isEmptySet then .MayOverflow
  else if !Min.msb && OtherMax.msb && (SignedMax + OtherMax).slt Min then .AlwaysOverflowsHigh
  else if Max.msb && !OtherMin.msb && Max.slt (SignedMin + OtherMin) then .AlwaysOverflowsLow
  else if !Max.msb && OtherMin.msb && (SignedMax + OtherMin).slt Max then .MayOverflow
  else if Min.msb && !OtherMax.msb && Min.slt (SignedMin + OtherMax) then .MayOverflow
  else .NeverOverflows

def unsignedMulMayOverflow (R Other : ConstantRange w) : OverflowResult :=
  if R.isEmptySet || Other.isEmptySet then .MayOverflow
  else if (umul_ov R.getUnsignedMin Other.getUnsignedMin).2 then .AlwaysOverflowsHigh
  else if (umul_ov R.getUnsignedMax Other.getUnsignedMax).2 then .MayOverflow
  else .NeverOverflows

theorem sadd_high_iff (hw : 0 < w) (a b : BitVec w) :
    (!a.msb && !b.msb && (BitVec.intMax w - b).slt a) = true ↔
      (2 ^ (w - 1) : Int) - 1 < a.toInt + b.toInt := by
  have ha := toInt_bounds hw a
  have hb := toInt_bounds hw b
  have hmax := toInt_intMax hw
  have hdiff := toInt_sub_cases hw (BitVec.intMax w) b
  have hbounds := toInt_bounds hw (BitVec.intMax w - b)
  simp only [BitVec.msb_eq_toInt, BitVec.slt, Bool.and_eq_true, Bool.not_eq_true',
    decide_eq_true_iff, decide_eq_false_iff_not]
  omega

theorem sadd_low_iff (hw : 0 < w) (a b : BitVec w) :
    (a.msb && b.msb && a.slt (BitVec.intMin w - b)) = true ↔
      a.toInt + b.toInt < -(2 ^ (w - 1) : Int) := by
  have ha := toInt_bounds hw a
  have hb := toInt_bounds hw b
  have hmin := toInt_intMin hw
  have hdiff := toInt_sub_cases hw (BitVec.intMin w) b
  have hbounds := toInt_bounds hw (BitVec.intMin w - b)
  simp only [BitVec.msb_eq_toInt, BitVec.slt, Bool.and_eq_true, decide_eq_true_iff]
  omega

theorem ssub_high_iff (hw : 0 < w) (a b : BitVec w) :
    (!a.msb && b.msb && (BitVec.intMax w + b).slt a) = true ↔
      (2 ^ (w - 1) : Int) - 1 < a.toInt - b.toInt := by
  have ha := toInt_bounds hw a
  have hb := toInt_bounds hw b
  have hmax := toInt_intMax hw
  have hsum := toInt_add_cases hw (BitVec.intMax w) b
  have hbounds := toInt_bounds hw (BitVec.intMax w + b)
  simp only [BitVec.msb_eq_toInt, BitVec.slt, Bool.and_eq_true, Bool.not_eq_true',
    decide_eq_true_iff, decide_eq_false_iff_not]
  omega

theorem ssub_low_iff (hw : 0 < w) (a b : BitVec w) :
    (a.msb && !b.msb && a.slt (BitVec.intMin w + b)) = true ↔
      a.toInt - b.toInt < -(2 ^ (w - 1) : Int) := by
  have ha := toInt_bounds hw a
  have hb := toInt_bounds hw b
  have hmin := toInt_intMin hw
  have hsum := toInt_add_cases hw (BitVec.intMin w) b
  have hbounds := toInt_bounds hw (BitVec.intMin w + b)
  simp only [BitVec.msb_eq_toInt, BitVec.slt, Bool.and_eq_true, Bool.not_eq_true',
    decide_eq_true_iff, decide_eq_false_iff_not]
  omega

/-! ## Exact classification -/

/-- The result says how the values of the pairs of two ranges lie against the bounds `lo`, `hi`. -/
structure Classifies (X Y : ConstantRange w) (f : BitVec w → BitVec w → Int) (lo hi : Int)
    (result : OverflowResult) : Prop where
  never : result = .NeverOverflows ↔ ∀ a ∈ X, ∀ b ∈ Y, lo ≤ f a b ∧ f a b ≤ hi
  alwaysHigh : result = .AlwaysOverflowsHigh ↔ ∀ a ∈ X, ∀ b ∈ Y, hi < f a b
  alwaysLow : result = .AlwaysOverflowsLow ↔ ∀ a ∈ X, ∀ b ∈ Y, f a b < lo
  may : result = .MayOverflow ↔
    (¬∀ a ∈ X, ∀ b ∈ Y, lo ≤ f a b ∧ f a b ≤ hi) ∧ (¬∀ a ∈ X, ∀ b ∈ Y, hi < f a b) ∧
      ¬∀ a ∈ X, ∀ b ∈ Y, f a b < lo

/-- The classification by the least value and the greatest one. -/
def classify (lo hi least greatest : Int) : OverflowResult :=
  if hi < least then .AlwaysOverflowsHigh
  else if greatest < lo then .AlwaysOverflowsLow
  else if hi < greatest ∨ least < lo then .MayOverflow
  else .NeverOverflows

variable {X Y : ConstantRange w} {f : BitVec w → BitVec w → Int} {lo hi : Int}

theorem classifies_classify {a₀ b₀ a₁ b₁ : BitVec w} (hbounds : lo ≤ hi)
    (ha₀ : a₀ ∈ X) (hb₀ : b₀ ∈ Y) (ha₁ : a₁ ∈ X) (hb₁ : b₁ ∈ Y)
    (hleast : ∀ a ∈ X, ∀ b ∈ Y, f a₀ b₀ ≤ f a b)
    (hgreatest : ∀ a ∈ X, ∀ b ∈ Y, f a b ≤ f a₁ b₁) :
    Classifies X Y f lo hi (classify lo hi (f a₀ b₀) (f a₁ b₁)) := by
  have hnever : (∀ a ∈ X, ∀ b ∈ Y, lo ≤ f a b ∧ f a b ≤ hi) ↔
      lo ≤ f a₀ b₀ ∧ f a₁ b₁ ≤ hi := by
    constructor
    · intro h
      exact ⟨(h a₀ ha₀ b₀ hb₀).1, (h a₁ ha₁ b₁ hb₁).2⟩
    · intro h a ha b hb
      exact ⟨h.1.trans (hleast a ha b hb), (hgreatest a ha b hb).trans h.2⟩
  have hhigh : (∀ a ∈ X, ∀ b ∈ Y, hi < f a b) ↔ hi < f a₀ b₀ :=
    ⟨fun h => h a₀ ha₀ b₀ hb₀, fun h a ha b hb => h.trans_le (hleast a ha b hb)⟩
  have hlow : (∀ a ∈ X, ∀ b ∈ Y, f a b < lo) ↔ f a₁ b₁ < lo :=
    ⟨fun h => h a₁ ha₁ b₁ hb₁, fun h a ha b hb => (hgreatest a ha b hb).trans_lt h⟩
  have hle := hleast a₁ ha₁ b₁ hb₁
  constructor
  all_goals
    simp only [hnever, hhigh, hlow]
    unfold classify
    split_ifs <;> simp <;> omega

variable (hX : X.isEmptySet = false) (hY : Y.isEmptySet = false)

include hX hY

theorem unsignedAddMayOverflow_classifies :
    Classifies X Y (fun a b => a.toNat + b.toNat) 0 (2 ^ w - 1) (unsignedAddMayOverflow X Y) := by
  have hclass : unsignedAddMayOverflow X Y = classify 0 (2 ^ w - 1)
      (X.getUnsignedMin.toNat + Y.getUnsignedMin.toNat)
      (X.getUnsignedMax.toNat + Y.getUnsignedMax.toNat) := by
    have hcast := cast_two_pow w
    simp only [unsignedAddMayOverflow, classify, hX, hY, BitVec.ult, BitVec.toNat_not,
      Bool.or_self, Bool.false_eq_true, if_false, decide_eq_true_iff]
    split_ifs <;> first | rfl | omega
  rw [hclass]
  have hpos := int_two_pow_pos w
  refine classifies_classify (by omega) (getUnsignedMin_mem hX) (getUnsignedMin_mem hY)
    (getUnsignedMax_mem hX) (getUnsignedMax_mem hY) ?_ ?_
  · intro a ha b hb
    have hamin := getUnsignedMin_le ha
    have hbmin := getUnsignedMin_le hb
    omega
  · intro a ha b hb
    have hamax := le_getUnsignedMax ha
    have hbmax := le_getUnsignedMax hb
    omega

theorem unsignedSubMayOverflow_classifies :
    Classifies X Y (fun a b => a.toNat - b.toNat) 0 (2 ^ w - 1) (unsignedSubMayOverflow X Y) := by
  have hclass : unsignedSubMayOverflow X Y = classify 0 (2 ^ w - 1)
      (X.getUnsignedMin.toNat - Y.getUnsignedMax.toNat)
      (X.getUnsignedMax.toNat - Y.getUnsignedMin.toNat) := by
    have hcast := cast_two_pow w
    simp only [unsignedSubMayOverflow, classify, hX, hY, BitVec.ult,
      Bool.or_self, Bool.false_eq_true, if_false, decide_eq_true_iff]
    split_ifs <;> first | rfl | omega
  rw [hclass]
  have hpos := int_two_pow_pos w
  refine classifies_classify (by omega) (getUnsignedMin_mem hX) (getUnsignedMax_mem hY)
    (getUnsignedMax_mem hX) (getUnsignedMin_mem hY) ?_ ?_
  · intro a ha b hb
    have hamin := getUnsignedMin_le ha
    have hbmax := le_getUnsignedMax hb
    omega
  · intro a ha b hb
    have hamax := le_getUnsignedMax ha
    have hbmin := getUnsignedMin_le hb
    omega

theorem signedAddMayOverflow_classifies :
    Classifies X Y (fun a b => a.toInt + b.toInt) (-2 ^ (w - 1)) (2 ^ (w - 1) - 1)
      (signedAddMayOverflow X Y) := by
  have hw := width_pos_of_not_empty hX
  have hpos := int_two_pow_pos (w - 1)
  have hclass : signedAddMayOverflow X Y = classify (-2 ^ (w - 1)) (2 ^ (w - 1) - 1)
      (X.getSignedMin.toInt + Y.getSignedMin.toInt)
      (X.getSignedMax.toInt + Y.getSignedMax.toInt) := by
    simp only [signedAddMayOverflow, classify, hX, hY, sadd_high_iff hw, sadd_low_iff hw,
      Bool.or_self, Bool.false_eq_true, if_false]
    split_ifs <;> first | rfl | omega
  rw [hclass]
  refine classifies_classify (by omega) (getSignedMin_mem hX) (getSignedMin_mem hY)
    (getSignedMax_mem hX) (getSignedMax_mem hY) ?_ ?_
  · intro a ha b hb
    have hamin := getSignedMin_le ha
    have hbmin := getSignedMin_le hb
    omega
  · intro a ha b hb
    have hamax := le_getSignedMax ha
    have hbmax := le_getSignedMax hb
    omega

theorem signedSubMayOverflow_classifies :
    Classifies X Y (fun a b => a.toInt - b.toInt) (-2 ^ (w - 1)) (2 ^ (w - 1) - 1)
      (signedSubMayOverflow X Y) := by
  have hw := width_pos_of_not_empty hX
  have hpos := int_two_pow_pos (w - 1)
  have hclass : signedSubMayOverflow X Y = classify (-2 ^ (w - 1)) (2 ^ (w - 1) - 1)
      (X.getSignedMin.toInt - Y.getSignedMax.toInt)
      (X.getSignedMax.toInt - Y.getSignedMin.toInt) := by
    simp only [signedSubMayOverflow, classify, hX, hY, ssub_high_iff hw, ssub_low_iff hw,
      Bool.or_self, Bool.false_eq_true, if_false]
    split_ifs <;> first | rfl | omega
  rw [hclass]
  refine classifies_classify (by omega) (getSignedMin_mem hX) (getSignedMax_mem hY)
    (getSignedMax_mem hX) (getSignedMin_mem hY) ?_ ?_
  · intro a ha b hb
    have hamin := getSignedMin_le ha
    have hbmax := le_getSignedMax hb
    omega
  · intro a ha b hb
    have hamax := le_getSignedMax ha
    have hbmin := getSignedMin_le hb
    omega

theorem unsignedMulMayOverflow_never (h : unsignedMulMayOverflow X Y = .NeverOverflows) :
    ∀ a ∈ X, ∀ b ∈ Y, a.toNat * b.toNat < 2 ^ w := by
  intro a ha b hb
  have hw := width_pos_of_not_empty hX
  have hspec := (umul_ov_spec hw X.getUnsignedMax Y.getUnsignedMax).overflow
  have hmul := Nat.mul_le_mul (le_getUnsignedMax ha) (le_getUnsignedMax hb)
  by_contra hover
  have htrue := hspec.mpr ((Nat.not_lt.mp hover).trans hmul)
  simp only [unsignedMulMayOverflow, hX, hY, htrue] at h
  split_ifs at h

theorem unsignedMulMayOverflow_always (h : unsignedMulMayOverflow X Y = .AlwaysOverflowsHigh) :
    ∀ a ∈ X, ∀ b ∈ Y, 2 ^ w ≤ a.toNat * b.toNat := by
  intro a ha b hb
  have hw := width_pos_of_not_empty hX
  have hspec := (umul_ov_spec hw X.getUnsignedMin Y.getUnsignedMin).overflow
  have hmul := Nat.mul_le_mul (getUnsignedMin_le ha) (getUnsignedMin_le hb)
  have hover : (umul_ov X.getUnsignedMin Y.getUnsignedMin).2 = true := by
    by_contra hfalse
    simp only [unsignedMulMayOverflow, hX, hY, hfalse] at h
    split_ifs at h
    simp_all
  exact (hspec.mp hover).trans hmul

/-- The classifications of the operations on two ranges. -/
structure OverflowClassified (X Y : ConstantRange w) : Prop where
  unsignedAdd : Classifies X Y (fun a b => a.toNat + b.toNat) 0 (2 ^ w - 1)
    (unsignedAddMayOverflow X Y)
  signedAdd : Classifies X Y (fun a b => a.toInt + b.toInt) (-2 ^ (w - 1)) (2 ^ (w - 1) - 1)
    (signedAddMayOverflow X Y)
  unsignedSub : Classifies X Y (fun a b => a.toNat - b.toNat) 0 (2 ^ w - 1)
    (unsignedSubMayOverflow X Y)
  signedSub : Classifies X Y (fun a b => a.toInt - b.toInt) (-2 ^ (w - 1)) (2 ^ (w - 1) - 1)
    (signedSubMayOverflow X Y)
  unsignedMul_never : unsignedMulMayOverflow X Y = .NeverOverflows →
    ∀ a ∈ X, ∀ b ∈ Y, a.toNat * b.toNat < 2 ^ w
  unsignedMul_always : unsignedMulMayOverflow X Y = .AlwaysOverflowsHigh →
    ∀ a ∈ X, ∀ b ∈ Y, 2 ^ w ≤ a.toNat * b.toNat
  unsignedMul_low : unsignedMulMayOverflow X Y ≠ .AlwaysOverflowsLow

end SmlnjLlvm.ConstantRange
