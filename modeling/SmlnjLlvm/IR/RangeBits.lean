import SmlnjLlvm.IR.ICmpRegions
import SmlnjLlvm.Support.KnownBits

/-!
# Bitwise operations on ranges

A range is weakened to the leading bits that its elements share, and a set of
known bits is the range between its least and its greatest member. The bitwise
operations work on the known bits.
-/

namespace SmlnjLlvm.ConstantRange

open Words APIntOps Support

variable {w : Nat} {R X Y : ConstantRange w} {v x y : BitVec w} {K : KnownBits w}

def GetMostSignificantDifferentBit (A B : BitVec w) : Option Nat :=
  if A = B then none else some (w - (countl_zero (A ^^^ B) + 1))

def clearLowBits (A : BitVec w) (loBits : Nat) : BitVec w := A &&& getHighBitsSet w (w - loBits)

/-- `fromKnownBits`, with its assertion. -/
def fromKnownBits (Known : KnownBits w) (IsSigned : Bool) : Option (ConstantRange w) :=
  if Known.hasConflict then none
  else if Known.isUnknown then some getFull
  else if !IsSigned || Known.isNegative || Known.isNonNegative then
    ofBounds Known.getMinValue (Known.getMaxValue + 1)
  else
    ofBounds (Known.getMinValue ||| BitVec.intMin w)
      ((Known.getMaxValue &&& ~~~BitVec.intMin w) + 1)

def toKnownBits (R : ConstantRange w) : KnownBits w :=
  if R.isEmptySet then KnownBits.unknown w
  else
    let Min := R.getUnsignedMin
    let Max := R.getUnsignedMax
    let Known := KnownBits.makeConstant Min
    match GetMostSignificantDifferentBit Min Max with
    | none => Known
    | some DifferentBit =>
      ⟨clearLowBits Known.Zero (DifferentBit + 1), clearLowBits Known.One (DifferentBit + 1)⟩

def binaryNot (R : ConstantRange w) : Option (ConstantRange w) :=
  (ofAPInt (BitVec.allOnes w)).sub R

def binaryAnd (R Other : ConstantRange w) : Option (ConstantRange w) :=
  if R.isEmptySet || Other.isEmptySet then some getEmpty
  else do
    let KnownBitsRange ← fromKnownBits (R.toKnownBits.and Other.toKnownBits) false
    let UMinUMaxRange :=
      getNonEmpty 0 (APIntOps.umin Other.getUnsignedMax R.getUnsignedMax + 1)
    KnownBitsRange.intersectWith UMinUMaxRange .Smallest

def binaryOr (R Other : ConstantRange w) : Option (ConstantRange w) :=
  if R.isEmptySet || Other.isEmptySet then some getEmpty
  else do
    let KnownBitsRange ← fromKnownBits (R.toKnownBits.or Other.toKnownBits) false
    let UMaxUMinRange := getNonEmpty (APIntOps.umax R.getUnsignedMin Other.getUnsignedMin) 0
    KnownBitsRange.intersectWith UMaxUMinRange .Smallest

def binaryXor (R Other : ConstantRange w) : Option (ConstantRange w) :=
  if R.isEmptySet || Other.isEmptySet then some getEmpty
  else
    match R.getSingleElement, Other.getSingleElement with
    | some A, some B => some (ofAPInt (A ^^^ B))
    | none, some B =>
      if B = BitVec.allOnes w then R.binaryNot
      else fromKnownBits (R.toKnownBits.xor Other.toKnownBits) false
    | some A, none =>
      if A = BitVec.allOnes w then Other.binaryNot
      else fromKnownBits (R.toKnownBits.xor Other.toKnownBits) false
    | none, none => fromKnownBits (R.toKnownBits.xor Other.toKnownBits) false

theorem isUnknown_of_extremes (hmin : K.getMinValue = 0) (hmax : K.getMaxValue = BitVec.allOnes w) :
    K.isUnknown = true := by
  have hzero : K.Zero = 0 := by
    rw [← BitVec.not_not (b := K.Zero), show ~~~K.Zero = BitVec.allOnes w from hmax,
      BitVec.not_allOnes]
    rfl
  simp [KnownBits.isUnknown, hzero, show K.One = 0 from hmin]

theorem fromKnownBits_unsigned (h : K.hasConflict = false) :
    ∃ Res, fromKnownBits K false = some Res ∧ ∀ v ∈ K, v ∈ Res := by
  unfold fromKnownBits
  rw [if_neg (Bool.eq_false_iff.mp h)]
  split_ifs with hunknown hsimple
  · exact ⟨getFull, rfl, fun v _ => mem_getFull v⟩
  · have hle := KnownBits.getMinValue_le (KnownBits.getMaxValue_mem h)
    have hne : K.getMinValue ≠ K.getMaxValue + 1 := by
      intro heq
      rcases Nat.eq_zero_or_pos w with rfl | hw
      · exact hunknown (isUnknown_of_extremes (Subsingleton.elim _ _) (Subsingleton.elim _ _))
      · have hnat := congrArg BitVec.toNat heq
        have hadd := toNat_add_one_cases hw K.getMaxValue
        refine hunknown (isUnknown_of_extremes (BitVec.eq_of_toNat_eq ?_)
          (BitVec.eq_of_toNat_eq ?_))
        · rw [BitVec.ofNat_eq_ofNat, BitVec.toNat_zero]
          omega
        · rw [BitVec.toNat_allOnes]
          omega
    obtain ⟨Res, hRes, hmem⟩ := ofBounds_between hle hne
    exact ⟨Res, hRes, fun v hv =>
      (hmem v).mpr ⟨KnownBits.getMinValue_le hv, KnownBits.le_getMaxValue hv⟩⟩
  · simp at hsimple

theorem getLsbD_clearLowBits (A : BitVec w) {d i : Nat} (hd : d ≤ w) :
    (clearLowBits A d).getLsbD i = true ↔ A.getLsbD i = true ∧ d ≤ i := by
  have hlt : A.getLsbD i = true → i < w := BitVec.lt_of_getLsbD
  rw [clearLowBits, BitVec.getLsbD_and, getLsbD_getHighBitsSet, Nat.sub_sub_self hd]
  simp only [Bool.and_eq_true, decide_eq_true_iff]
  tauto

theorem getLsbD_eq_of_div_eq {k i : Nat} (h : x.toNat / 2 ^ k = y.toNat / 2 ^ k) (hi : k ≤ i) :
    x.getLsbD i = y.getLsbD i := by
  have hbit := congrArg (fun n : Nat => n.testBit (i - k)) h
  simp only [Nat.testBit_div_two_pow, Nat.sub_add_cancel hi, BitVec.testBit_toNat] at hbit
  exact hbit

theorem mem_toKnownBits (hx : x ∈ R) : x ∈ R.toKnownBits := by
  unfold toKnownBits
  split_ifs with hempty
  · exact KnownBits.mem_unknown x
  · have hends := between_ends hx
    unfold GetMostSignificantDifferentBit
    by_cases heq : R.getUnsignedMin = R.getUnsignedMax
    · simp only [if_pos heq]
      refine KnownBits.mem_makeConstant.mpr (BitVec.eq_of_toNat_eq ?_)
      have hnat := congrArg BitVec.toNat heq
      unfold Between at hends
      omega
    · simp only [if_neg heq]
      have hlt := countl_zero_xor_lt heq
      have hdiv := div_eq_of_between (Nat.le_refl _) hends.1 hends.2
      have hbit : w - (countl_zero (R.getUnsignedMin ^^^ R.getUnsignedMax) + 1) + 1 =
          w - countl_zero (R.getUnsignedMin ^^^ R.getUnsignedMax) := by omega
      rw [hbit]
      refine KnownBits.mem_iff.mpr fun i => ?_
      have hsame := getLsbD_eq_of_div_eq hdiv (i := i)
      have hconst := KnownBits.mem_iff.mp (KnownBits.mem_makeConstant.mpr rfl :
        R.getUnsignedMin ∈ KnownBits.makeConstant R.getUnsignedMin) i
      have hle : w - countl_zero (R.getUnsignedMin ^^^ R.getUnsignedMax) ≤ w := Nat.sub_le _ _
      simp only [getLsbD_clearLowBits _ hle]
      refine ⟨fun h => ?_, fun h => ?_⟩
      · rw [hsame h.2]
        exact hconst.1 h.1
      · rw [hsame h.2]
        exact hconst.2 h.1

variable {P : BitVec w → BitVec w → Prop}

theorem fromKnownBits_covers (hX : X.isEmptySet = false) (hY : Y.isEmptySet = false)
    {f : BitVec w → BitVec w → BitVec w} (h : ∀ x ∈ X, ∀ y ∈ Y, f x y ∈ K) :
    Covers (fromKnownBits K false) (results X Y (fun _ _ => True) f) := by
  have hmem := h _ (first_mem hX) _ (first_mem hY)
  obtain ⟨Res, hRes, hcovers⟩ := fromKnownBits_unsigned (KnownBits.not_conflict_of_mem hmem)
  refine ⟨Res, hRes, ?_⟩
  rintro v ⟨x, hx, y, hy, -, rfl⟩
  exact hcovers _ (h x hx y hy)

theorem binaryAnd_covers (X Y : ConstantRange w) :
    Covers (X.binaryAnd Y) (results X Y (fun _ _ => True) (· &&& ·)) := by
  unfold binaryAnd
  apply Covers.guarded
  intro hX hY
  refine Covers.bind (fromKnownBits_covers hX hY fun x hx y hy =>
    KnownBits.mem_and (mem_toKnownBits hx) (mem_toKnownBits hy)) fun R hR => ?_
  apply hR.intersectWith
  rintro v ⟨x, hx, y, hy, -, rfl⟩
  have hxb := le_getUnsignedMax hx
  have hyb := le_getUnsignedMax hy
  have hle : (x &&& y).toNat ≤ x.toNat := by
    rw [BitVec.toNat_and]
    exact Nat.and_le_left
  have hle' : (x &&& y).toNat ≤ y.toNat := by
    rw [BitVec.toNat_and]
    exact Nat.and_le_right
  rw [mem_upTo, toNat_umin]
  dsimp only
  omega

theorem binaryOr_covers (X Y : ConstantRange w) :
    Covers (X.binaryOr Y) (results X Y (fun _ _ => True) (· ||| ·)) := by
  unfold binaryOr
  apply Covers.guarded
  intro hX hY
  refine Covers.bind (fromKnownBits_covers hX hY fun x hx y hy =>
    KnownBits.mem_or (mem_toKnownBits hx) (mem_toKnownBits hy)) fun R hR => ?_
  apply hR.intersectWith
  rintro v ⟨x, hx, y, hy, -, rfl⟩
  have hxb := getUnsignedMin_le hx
  have hyb := getUnsignedMin_le hy
  have hle : x.toNat ≤ (x ||| y).toNat := by
    rw [BitVec.toNat_or]
    exact Nat.left_le_or
  have hle' : y.toNat ≤ (x ||| y).toNat := by
    rw [BitVec.toNat_or]
    exact Nat.right_le_or
  rw [mem_from, toNat_umax]
  dsimp only
  omega

theorem binaryNot_covers (hw : 0 < w) (R : ConstantRange w) :
    Covers R.binaryNot {v | ∃ x ∈ R, v = ~~~x} := by
  refine (sub_covers (ofAPInt (BitVec.allOnes w)) R).mono ?_
  rintro v ⟨x, hx, rfl⟩
  refine ⟨BitVec.allOnes w, (mem_ofAPInt_iff hw).mpr rfl, x, hx, trivial, ?_⟩
  dsimp only
  rw [BitVec.allOnes_sub_eq_not]

theorem binaryXor_covers (hw : 0 < w) (X Y : ConstantRange w) :
    Covers (X.binaryXor Y) (results X Y (fun _ _ => True) (· ^^^ ·)) := by
  unfold binaryXor
  apply Covers.guarded
  intro hX hY
  have hknown : Covers (fromKnownBits (X.toKnownBits.xor Y.toKnownBits) false)
      (results X Y (fun _ _ => True) (· ^^^ ·)) :=
    fromKnownBits_covers hX hY fun x hx y hy =>
      KnownBits.mem_xor (mem_toKnownBits hx) (mem_toKnownBits hy)
  cases hA : X.getSingleElement with
  | some A =>
    cases hB : Y.getSingleElement with
    | some B =>
      refine ⟨_, rfl, ?_⟩
      rintro v ⟨x, hx, y, hy, -, rfl⟩
      rw [(mem_single_iff hw hA).mp hx, (mem_single_iff hw hB).mp hy]
      exact (mem_ofAPInt_iff hw).mpr rfl
    | none =>
      dsimp only
      split_ifs with hones
      · apply (binaryNot_covers hw Y).mono
        rintro v ⟨x, hx, y, hy, -, rfl⟩
        refine ⟨y, hy, ?_⟩
        dsimp only
        rw [(mem_single_iff hw hA).mp hx, hones, BitVec.allOnes_xor]
      · exact hknown
  | none =>
    cases hB : Y.getSingleElement with
    | some B =>
      dsimp only
      split_ifs with hones
      · apply (binaryNot_covers hw X).mono
        rintro v ⟨x, hx, y, hy, -, rfl⟩
        refine ⟨x, hx, ?_⟩
        dsimp only
        rw [(mem_single_iff hw hB).mp hy, hones, BitVec.xor_allOnes]
      · exact hknown
    | none => exact hknown

end SmlnjLlvm.ConstantRange
