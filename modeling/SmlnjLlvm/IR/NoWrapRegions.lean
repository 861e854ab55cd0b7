import SmlnjLlvm.IR.ICmpRegions

/-!
# Regions without overflow

For an operation and a range of right operands, the region of the left operands
that overflow with none of them. The extreme right operands decide, and the
bounds are what they leave of the range of the type.
-/

namespace SmlnjLlvm.ConstantRange

open Words APIntOps

variable {w : Nat} {R Other : ConstantRange w} {v x y V lo hi : BitVec w}

/-- The operators of `Instruction::BinaryOps` that can carry the flags. -/
inductive BinaryOps where
  | Add
  | Sub
  | Mul
  | Shl
  deriving DecidableEq, Repr

def makeExactMulNUWRegion (V : BitVec w) : Option (ConstantRange w) :=
  if V = 0 then some getFull
  else do
    let Lower ← RoundingUDiv 0 V .UP
    let Upper ← RoundingUDiv (BitVec.allOnes w) V .DOWN
    some (getNonEmpty Lower (Upper + 1))

def makeExactMulNSWRegion (V : BitVec w) : Option (ConstantRange w) :=
  if V = 0 then some getFull
  else
    let MinValue := BitVec.intMin w
    let MaxValue := BitVec.intMax w
    if V = BitVec.allOnes w then ofBounds (-MaxValue) MinValue
    else if V.msb then do
      let Lower ← RoundingSDiv MaxValue V .UP
      let Upper ← RoundingSDiv MinValue V .DOWN
      some (getNonEmpty Lower (Upper + 1))
    else do
      let Lower ← RoundingSDiv MinValue V .UP
      let Upper ← RoundingSDiv MaxValue V .DOWN
      some (getNonEmpty Lower (Upper + 1))

def addNoWrapRegion (Other : ConstantRange w) (Unsigned : Bool) : ConstantRange w :=
  if Unsigned then getNonEmpty 0 (-Other.getUnsignedMax)
  else
    let SignedMinVal := BitVec.intMin w
    let SMin := Other.getSignedMin
    let SMax := Other.getSignedMax
    getNonEmpty (if SMin.msb then SignedMinVal - SMin else SignedMinVal)
      (if isStrictlyPositive SMax then SignedMinVal - SMax else SignedMinVal)

def subNoWrapRegion (Other : ConstantRange w) (Unsigned : Bool) : ConstantRange w :=
  if Unsigned then getNonEmpty Other.getUnsignedMax 0
  else
    let SignedMinVal := BitVec.intMin w
    let SMin := Other.getSignedMin
    let SMax := Other.getSignedMax
    getNonEmpty (if isStrictlyPositive SMax then SignedMinVal + SMax else SignedMinVal)
      (if SMin.msb then SignedMinVal + SMin else SignedMinVal)

def mulNoWrapRegion (Other : ConstantRange w) (Unsigned : Bool) : Option (ConstantRange w) :=
  if Unsigned then makeExactMulNUWRegion Other.getUnsignedMax
  else
    match Other.getSingleElement with
    | some C => makeExactMulNSWRegion C
    | none => do
      let RMin ← makeExactMulNSWRegion Other.getSignedMin
      let RMax ← makeExactMulNSWRegion Other.getSignedMax
      RMin.intersectWith RMax .Smallest

def shlNoWrapRegion (Other : ConstantRange w) (Unsigned : Bool) : Option (ConstantRange w) := do
  let Legal ← ofBounds 0 (BitVec.ofNat w (w - 1 + 1))
  let ShAmt ← Other.intersectWith Legal .Smallest
  if ShAmt.isEmptySet then
    some getFull
  else
    let ShAmtUMax := ShAmt.getUnsignedMax
    if Unsigned then some (getNonEmpty 0 (lshr (BitVec.allOnes w) ShAmtUMax + 1))
    else
      some (getNonEmpty (ashr (BitVec.intMin w) ShAmtUMax) (ashr (BitVec.intMax w) ShAmtUMax + 1))

def makeGuaranteedNoWrapRegion (BinOp : BinaryOps) (Other : ConstantRange w)
    (NoWrapKind : BitVec 32) : Option (ConstantRange w) :=
  if NoWrapKind = NoSignedWrap ∨ NoWrapKind = NoUnsignedWrap then
    let Unsigned := decide (NoWrapKind = NoUnsignedWrap)
    match BinOp with
    | .Add => some (addNoWrapRegion Other Unsigned)
    | .Sub => some (subNoWrapRegion Other Unsigned)
    | .Mul => mulNoWrapRegion Other Unsigned
    | .Shl => shlNoWrapRegion Other Unsigned
  else none

def makeExactNoWrapRegion (BinOp : BinaryOps) (Other : BitVec w) (NoWrapKind : BitVec 32) :
    Option (ConstantRange w) :=
  makeGuaranteedNoWrapRegion BinOp (ofAPInt Other) NoWrapKind

/-- The exact result of an operator is an unsigned number of the width, for a legal operand. -/
def UnsignedSafe (x y : BitVec w) : BinaryOps → Prop
  | .Add => x.toNat + y.toNat < 2 ^ w
  | .Sub => y.toNat ≤ x.toNat
  | .Mul => x.toNat * y.toNat < 2 ^ w
  | .Shl => y.toNat < w → x.toNat * 2 ^ y.toNat < 2 ^ w

/-- The exact result of an operator is a signed number of the width, for a legal operand. -/
def SignedSafe (x y : BitVec w) : BinaryOps → Prop
  | .Add => SignedFits w (x.toInt + y.toInt)
  | .Sub => SignedFits w (x.toInt - y.toInt)
  | .Mul => SignedFits w (x.toInt * y.toInt)
  | .Shl => y.toNat < w → SignedFits w (x.toInt * 2 ^ y.toNat)

def NoOverflow (BinOp : BinaryOps) (NoWrapKind : BitVec 32) (x y : BitVec w) : Prop :=
  if NoWrapKind = NoUnsignedWrap then UnsignedSafe x y BinOp else SignedSafe x y BinOp

/-! ## Multiplication by one value -/

theorem makeExactMulNUWRegion_exact (V : BitVec w) :
    ∃ A, makeExactMulNUWRegion V = some A ∧ ∀ x, x ∈ A ↔ x.toNat * V.toNat < 2 ^ w := by
  unfold makeExactMulNUWRegion
  by_cases hV : V = 0
  · refine ⟨getFull, if_pos hV, fun x => iff_of_true (mem_getFull x) ?_⟩
    rw [hV, BitVec.ofNat_eq_ofNat, BitVec.toNat_zero, Nat.mul_zero]
    exact Nat.two_pow_pos w
  · have hpos : 0 < V.toNat := Support.toNat_ne_zero.mp hV
    have hdiv : (0 : BitVec w) / V = 0 := BitVec.zero_udiv
    have hmod : (0 : BitVec w) % V = 0 := BitVec.zero_umod
    refine ⟨getNonEmpty 0 (BitVec.allOnes w / V + 1), ?_, fun x => mem_upTo.trans ?_⟩
    · simp only [if_neg hV, RoundingUDiv, udiv_eq _ hV, urem_eq _ hV, hdiv, hmod,
        Option.bind_eq_bind, Option.bind_some, if_true]
    · rw [BitVec.toNat_udiv, BitVec.toNat_allOnes, Nat.le_div_iff_mul_le hpos]
      omega

theorem signedFits_zero (w : Nat) : SignedFits w 0 := by
  have hpos := int_two_pow_pos (w - 1)
  unfold SignedFits
  omega

theorem neg_intMax (hw : 0 < w) : -BitVec.intMax w = BitVec.intMin w + 1 := by
  have hpow := two_pow_eq hw
  have hneg := toNat_neg_cases (BitVec.intMax w)
  have hadd := toNat_add_one_cases hw (BitVec.intMin w)
  rw [toNat_intMax] at hneg
  rw [toNat_intMin hw] at hadd
  apply BitVec.eq_of_toNat_eq
  omega

/-- The elements of a range are the words between two bounds around zero. -/
def AroundZero (A : ConstantRange w) (L U : BitVec w) : Prop :=
  L.toInt ≤ 0 ∧ 0 ≤ U.toInt ∧ ∀ x, x ∈ A ↔ SBetween L U x

theorem aroundZero_getNonEmpty {L U : BitVec w} (hL : L.toInt ≤ 0) (hU : 0 ≤ U.toInt) :
    AroundZero (getNonEmpty L (U + 1)) L U :=
  ⟨hL, hU, fun _ => mem_getNonEmpty_iff_signed (Int.le_trans hL hU)⟩

theorem aroundZero_getFull (hw : 0 < w) :
    AroundZero getFull (BitVec.intMin w) (BitVec.intMax w) := by
  have hmin := toInt_intMin hw
  have hmax := toInt_intMax hw
  have hpos := int_two_pow_pos (w - 1)
  refine ⟨by omega, by omega, fun x => iff_of_true (mem_getFull x) ?_⟩
  exact ⟨intMin_le hw x, le_intMax hw x⟩

theorem makeExactMulNSWRegion_exact (hw : 0 < w) (V : BitVec w) :
    ∃ A L U, makeExactMulNSWRegion V = some A ∧ AroundZero A L U ∧
      ∀ x, x ∈ A ↔ SignedFits w (x.toInt * V.toInt) := by
  have hmin := toInt_intMin hw
  have hmax := toInt_intMax hw
  have hpos := int_two_pow_pos (w - 1)
  unfold makeExactMulNSWRegion
  by_cases hV : V = 0
  · refine ⟨getFull, _, _, if_pos hV, aroundZero_getFull hw,
      fun x => iff_of_true (mem_getFull x) ?_⟩
    rw [hV, BitVec.ofNat_eq_ofNat, BitVec.toInt_zero, Int.mul_zero]
    exact signedFits_zero w
  rw [if_neg hV]
  by_cases hones : V = BitVec.allOnes w
  · simp only [if_pos hones, neg_intMax hw]
    have hne : BitVec.intMin w ≠ BitVec.intMax w := by
      intro h
      rw [h] at hmin
      omega
    have hsucc := toInt_add_one_of_ne hne
    obtain ⟨A, hA, hmem⟩ := ofBounds_sabove hne
    refine ⟨A, BitVec.intMin w + 1, BitVec.intMax w, hA, ⟨by omega, by omega, fun x => ?_⟩,
      fun x => (hmem x).trans ?_⟩
    · have hx := le_intMax hw x
      rw [hmem, SBetween]
      omega
    · have hx := toInt_bounds hw x
      rw [hones, BitVec.toInt_allOnes, if_pos hw, hmin]
      unfold SignedFits
      omega
  · simp only [if_neg hones]
    by_cases hneg : V.msb = true
    · rw [if_pos hneg]
      rw [BitVec.msb_eq_toInt, decide_eq_true_iff] at hneg
      obtain ⟨-, L, hL, hLmem⟩ :=
        RoundingSDiv_neg (A := BitVec.intMax w) hw hneg (Or.inr hones)
      obtain ⟨⟨U, hU, hUmem⟩, -⟩ :=
        RoundingSDiv_neg (A := BitVec.intMin w) hw hneg (Or.inr hones)
      have haround := aroundZero_getNonEmpty ((hLmem 0).mpr (by omega)) ((hUmem 0).mpr (by omega))
      rw [hL, hU]
      refine ⟨getNonEmpty L (U + 1), L, U, rfl, haround, fun x => ?_⟩
      rw [haround.2.2, SBetween, hLmem, hUmem, hmin, hmax]
      unfold SignedFits
      omega
    · rw [if_neg hneg]
      have hVpos : 0 < V.toInt := by
        have hne := toInt_ne_zero_iff.mpr hV
        rw [BitVec.msb_eq_toInt, decide_eq_true_iff] at hneg
        omega
      obtain ⟨-, L, hL, hLmem⟩ := RoundingSDiv_pos hw (BitVec.intMin w) hVpos
      obtain ⟨⟨U, hU, hUmem⟩, -⟩ := RoundingSDiv_pos hw (BitVec.intMax w) hVpos
      have haround := aroundZero_getNonEmpty ((hLmem 0).mpr (by omega)) ((hUmem 0).mpr (by omega))
      rw [hL, hU]
      refine ⟨getNonEmpty L (U + 1), L, U, rfl, haround, fun x => ?_⟩
      rw [haround.2.2, SBetween, hLmem, hUmem, hmin, hmax]
      unfold SignedFits
      omega

theorem intersectWith_aroundZero {A B : ConstantRange w} {L U L' U' : BitVec w}
    (hA : AroundZero A L U) (hB : AroundZero B L' U') :
    ∃ Res, A.intersectWith B .Smallest = some Res ∧ ∀ x, x ∈ Res ↔ x ∈ A ∧ x ∈ B := by
  obtain ⟨Res, hRes, hhull⟩ := intersectWith_hull A B .Smallest
  obtain ⟨hL, hU, hAmem⟩ := hA
  obtain ⟨hL', hU', hBmem⟩ := hB
  have hLo := toInt_smax L L'
  have hHi := toInt_smin U U'
  have hrep : Representable (A.elements ∩ B.elements) := by
    refine ⟨getNonEmpty (APIntOps.smax L L') (APIntOps.smin U U' + 1), Set.ext fun x => ?_⟩
    have hle : (APIntOps.smax L L').toInt ≤ (APIntOps.smin U U').toInt := by omega
    refine (mem_getNonEmpty_iff_signed hle).trans ?_
    have hx : x ∈ A.elements ∩ B.elements ↔ x ∈ A ∧ x ∈ B := Iff.rfl
    rw [hx, hAmem, hBmem]
    unfold SBetween
    omega
  exact ⟨Res, hRes, fun x => Set.ext_iff.mp (hhull.exact hrep) x⟩

theorem toNat_neg_sub_one (hw : 0 < w) (v : BitVec w) : (-v - 1).toNat + v.toNat + 1 = 2 ^ w := by
  have hneg := toNat_neg_cases v
  have hsub := toNat_sub_one_cases hw (-v)
  omega

theorem mem_movedBounds {lo up : BitVec w} {m M : Int} (hlo : lo.toInt = -(2 ^ (w - 1)) + m)
    (hup : (up - 1).toInt = 2 ^ (w - 1) - 1 - M) (hroom : m + M ≤ 2 * 2 ^ (w - 1) - 1) :
    x ∈ getNonEmpty lo up ↔ -(2 ^ (w - 1)) + m ≤ x.toInt ∧ x.toInt < 2 ^ (w - 1) - M := by
  have hle : lo.toInt ≤ (up - 1).toInt := by omega
  have hmem : x ∈ getNonEmpty lo (up - 1 + 1) ↔ SBetween lo (up - 1) x :=
    mem_getNonEmpty_iff_signed hle
  rw [BitVec.sub_add_cancel] at hmem
  rw [hmem, SBetween, hlo, hup]
  omega

theorem mem_addNoWrapRegion (hw : 0 < w) :
    (x ∈ addNoWrapRegion Other true ↔ x.toNat + Other.getUnsignedMax.toNat < 2 ^ w) ∧
    (x ∈ addNoWrapRegion Other false ↔ -(2 ^ (w - 1)) ≤ x.toInt + Other.getSignedMin.toInt ∧
      x.toInt + Other.getSignedMax.toInt < 2 ^ (w - 1)) := by
  constructor
  · have hmax := toNat_neg_sub_one hw Other.getUnsignedMax
    have hmem : x ∈ getNonEmpty 0 (-Other.getUnsignedMax - 1 + 1) ↔ _ := mem_upTo
    rw [BitVec.sub_add_cancel] at hmem
    refine hmem.trans ?_
    omega
  · unfold addNoWrapRegion
    rw [if_neg Bool.false_ne_true]
    generalize Other.getSignedMin = SMin
    generalize Other.getSignedMax = SMax
    have hmin := toInt_intMin hw
    have hx := toInt_bounds hw x
    have hSMin := toInt_bounds hw SMin
    have hSMax := toInt_bounds hw SMax
    have hlo : (if SMin.msb then BitVec.intMin w - SMin else BitVec.intMin w).toInt =
        -(2 ^ (w - 1)) + max (-SMin.toInt) 0 := by
      have hsub := toInt_sub_cases hw (BitVec.intMin w) SMin
      have hbounds := toInt_bounds hw (BitVec.intMin w - SMin)
      rw [BitVec.msb_eq_toInt]
      split_ifs with hneg <;> simp only [decide_eq_true_iff] at hneg <;> omega
    have hup : ((if isStrictlyPositive SMax then BitVec.intMin w - SMax else BitVec.intMin w) -
        1).toInt = 2 ^ (w - 1) - 1 - max SMax.toInt 0 := by
      have hsub := toInt_sub_cases hw (BitVec.intMin w) SMax
      have hpred := toInt_sub_one_cases hw (BitVec.intMin w - SMax)
      have hpred_min := toInt_sub_one_cases hw (BitVec.intMin w)
      split_ifs with hpos <;> rw [isStrictlyPositive_iff hw] at hpos <;> omega
    refine (mem_movedBounds hlo hup (by omega)).trans ?_
    omega

theorem mem_subNoWrapRegion (hw : 0 < w) :
    (x ∈ subNoWrapRegion Other true ↔ Other.getUnsignedMax.toNat ≤ x.toNat) ∧
    (x ∈ subNoWrapRegion Other false ↔ -(2 ^ (w - 1)) ≤ x.toInt - Other.getSignedMax.toInt ∧
      x.toInt - Other.getSignedMin.toInt < 2 ^ (w - 1)) := by
  constructor
  · exact mem_from
  · unfold subNoWrapRegion
    rw [if_neg Bool.false_ne_true]
    generalize Other.getSignedMin = SMin
    generalize Other.getSignedMax = SMax
    have hmin := toInt_intMin hw
    have hx := toInt_bounds hw x
    have hSMin := toInt_bounds hw SMin
    have hSMax := toInt_bounds hw SMax
    have hlo : (if isStrictlyPositive SMax then BitVec.intMin w + SMax else BitVec.intMin w).toInt =
        -(2 ^ (w - 1)) + max SMax.toInt 0 := by
      have hadd := toInt_add_cases hw (BitVec.intMin w) SMax
      have hbounds := toInt_bounds hw (BitVec.intMin w + SMax)
      split_ifs with hpos <;> rw [isStrictlyPositive_iff hw] at hpos <;> omega
    have hup : ((if SMin.msb then BitVec.intMin w + SMin else BitVec.intMin w) - 1).toInt =
        2 ^ (w - 1) - 1 - max (-SMin.toInt) 0 := by
      have hadd := toInt_add_cases hw (BitVec.intMin w) SMin
      have hpred := toInt_sub_one_cases hw (BitVec.intMin w + SMin)
      have hpred_min := toInt_sub_one_cases hw (BitVec.intMin w)
      rw [BitVec.msb_eq_toInt]
      split_ifs with hneg <;> simp only [decide_eq_true_iff] at hneg <;> omega
    refine (mem_movedBounds hlo hup (by omega)).trans ?_
    omega

theorem extremes_of_single (hw : 0 < w) (h : ∀ v, v ∈ R ↔ v = y) :
    R.getUnsignedMax = y ∧ R.getSignedMin = y ∧ R.getSignedMax = y := by
  have hempty : R.isEmptySet = false := isEmptySet_eq_false hw ((h y).mpr rfl)
  exact ⟨(h _).mp (getUnsignedMax_mem hempty), (h _).mp (getSignedMin_mem hempty),
    (h _).mp (getSignedMax_mem hempty)⟩

theorem mulNoWrapRegion_exact (hw : 0 < w) (Other : ConstantRange w) :
    (∃ A, mulNoWrapRegion Other true = some A ∧
      ∀ x, x ∈ A ↔ x.toNat * Other.getUnsignedMax.toNat < 2 ^ w) ∧
    ∃ A, mulNoWrapRegion Other false = some A ∧
      ∀ x, x ∈ A ↔ SignedFits w (x.toInt * Other.getSignedMin.toInt) ∧
        SignedFits w (x.toInt * Other.getSignedMax.toInt) := by
  refine ⟨makeExactMulNUWRegion_exact Other.getUnsignedMax, ?_⟩
  unfold mulNoWrapRegion
  rw [if_neg Bool.false_ne_true]
  cases hsingle : Other.getSingleElement with
  | some C =>
    obtain ⟨A, -, -, hA, -, hmem⟩ := makeExactMulNSWRegion_exact hw C
    obtain ⟨-, hSMin, hSMax⟩ := extremes_of_single hw fun _ => mem_single_iff hw hsingle
    refine ⟨A, hA, fun x => (hmem x).trans ?_⟩
    rw [hSMin, hSMax, and_self]
  | none =>
    obtain ⟨A, L, U, hA, haround, hAmem⟩ := makeExactMulNSWRegion_exact hw Other.getSignedMin
    obtain ⟨B, L', U', hB, haround', hBmem⟩ := makeExactMulNSWRegion_exact hw Other.getSignedMax
    obtain ⟨Res, hRes, hmem⟩ := intersectWith_aroundZero haround haround'
    refine ⟨Res, ?_, fun x => ?_⟩
    · simp only [hA, hB, Option.bind_eq_bind, Option.bind_some, hRes]
    · rw [hmem, hAmem, hBmem]

/-! ## Shifts -/

theorem legal_spec (hw : 0 < w) :
    ∃ Legal : ConstantRange w, ofBounds 0 (BitVec.ofNat w (w - 1 + 1)) = some Legal ∧
      (∀ v, v ∈ Legal ↔ v.toNat < w) ∧ 2 * Legal.elements.ncard ≤ 2 ^ w := by
  have hlt : w < 2 ^ w := Nat.lt_two_pow_self
  have hnat : (BitVec.ofNat w (w - 1 + 1)).toNat = w := by
    rw [Nat.sub_add_cancel hw, BitVec.toNat_ofNat, Nat.mod_eq_of_lt hlt]
  have hne : (0 : BitVec w) ≠ BitVec.ofNat w (w - 1 + 1) := by
    rw [ne_comm, Support.toNat_ne_zero, hnat]
    exact hw
  obtain ⟨Legal, hLegal, hmem⟩ := ofBounds_below hne.symm
  rw [hnat] at hmem
  refine ⟨Legal, hLegal, hmem, ?_⟩
  rw [ofBounds_of_ne hne, Option.some.injEq] at hLegal
  subst hLegal
  rw [ncard_elements hne]
  dsimp only
  rw [BitVec.ofNat_eq_ofNat, BitVec.sub_zero, hnat, two_pow_eq hw]
  exact Nat.mul_le_mul_left 2 (Nat.le_of_pred_lt Nat.lt_two_pow_self)

theorem signedFits_of_le {n : Int} {s t : Nat} (h : SignedFits w (n * 2 ^ t)) (hst : s ≤ t) :
    SignedFits w (n * 2 ^ s) := by
  have hpow : (2 : Int) ^ t = 2 ^ s * 2 ^ (t - s) := by
    rw [← Int.pow_add, Nat.add_sub_cancel' hst]
  have hone : (1 : Int) ≤ 2 ^ (t - s) := Int.pow_pos (by decide)
  rw [hpow, ← Int.mul_assoc] at h
  unfold SignedFits at *
  rcases Int.le_total 0 (n * 2 ^ s) with hn | hn
  · have hle := Int.mul_le_mul_of_nonneg_left hone hn
    omega
  · have hle := Int.mul_le_mul_of_nonpos_left hn hone
    omega

theorem mem_shlUnsigned {s : BitVec w} (hs : s.toNat < w) :
    x ∈ getNonEmpty 0 (lshr (BitVec.allOnes w) s + 1) ↔ x.toNat * 2 ^ s.toNat < 2 ^ w := by
  have hmin : min s.toNat w = s.toNat := by omega
  refine mem_upTo.trans ?_
  rw [toNat_lshr, BitVec.toNat_allOnes, hmin, Nat.le_div_iff_mul_le (Nat.two_pow_pos _)]
  omega

theorem mem_shlSigned {s : BitVec w} (hs : s.toNat < w) :
    x ∈ getNonEmpty (ashr (BitVec.intMin w) s) (ashr (BitVec.intMax w) s + 1) ↔
      SignedFits w (x.toInt * 2 ^ s.toNat) := by
  have hw : 0 < w := Nat.zero_lt_of_lt hs
  have hmin : min s.toNat w = s.toNat := by omega
  have hpow := int_two_pow_pos s.toNat
  have hpos := int_two_pow_pos (w - 1)
  have hsplit : (2 : Int) ^ (w - 1) = 2 ^ (w - 1 - s.toNat) * 2 ^ s.toNat := by
    rw [← Int.pow_add, Nat.sub_add_cancel (by omega)]
  have hquo : (ashr (BitVec.intMin w) s).toInt = -(2 ^ (w - 1 - s.toNat)) := by
    rw [toInt_ashr, hmin, toInt_intMin hw, hsplit, ← Int.neg_mul,
      Int.mul_ediv_cancel _ (Int.ne_of_gt hpow)]
  have hlow : (ashr (BitVec.intMin w) s).toInt ≤ x.toInt ↔
      -(2 ^ (w - 1)) ≤ x.toInt * 2 ^ s.toNat := by
    rw [hquo, hsplit, ← Int.neg_mul, Int.mul_le_mul_iff_of_pos_right hpow]
  have hhigh : x.toInt ≤ (ashr (BitVec.intMax w) s).toInt ↔
      x.toInt * 2 ^ s.toNat ≤ 2 ^ (w - 1) - 1 := by
    rw [toInt_ashr, hmin, toInt_intMax hw, Int.le_ediv_iff_mul_le hpow]
  have hnonneg : 0 ≤ (ashr (BitVec.intMax w) s).toInt := by
    rw [toInt_ashr, hmin, toInt_intMax hw]
    exact Int.ediv_nonneg (by omega) (Int.le_of_lt hpow)
  have hneg : (ashr (BitVec.intMin w) s).toInt ≤ 0 := by
    have hlead := int_two_pow_pos (w - 1 - s.toNat)
    omega
  rw [(aroundZero_getNonEmpty hneg hnonneg).2.2, SBetween, hlow, hhigh]
  unfold SignedFits
  omega

theorem getUnsignedMax_of_single (hw : 0 < w) (h : ∀ v, v ∈ Other ↔ v = y)
    (hends : R.Lower ∈ Other ∧ R.Upper - 1 ∈ Other) : R.getUnsignedMax = y := by
  have hLower := (h _).mp hends.1
  have hUpper : R.Upper = R.Lower + 1 := by
    rw [hLower, ← (h _).mp hends.2, BitVec.sub_add_cancel]
  have hsingle : R.getSingleElement = some y := by
    rw [getSingleElement, if_pos hUpper, hLower]
  exact (extremes_of_single hw fun _ => mem_single_iff hw hsingle).1

theorem shlNoWrapRegion_spec (hw : 0 < w) (Other : ConstantRange w) :
    (∃ A, shlNoWrapRegion Other true = some A ∧
      (∀ x ∈ A, ∀ y ∈ Other, UnsignedSafe x y .Shl) ∧
      ∀ y, (∀ v, v ∈ Other ↔ v = y) → ∀ x, UnsignedSafe x y .Shl → x ∈ A) ∧
    ∃ A, shlNoWrapRegion Other false = some A ∧
      (∀ x ∈ A, ∀ y ∈ Other, SignedSafe x y .Shl) ∧
      ∀ y, (∀ v, v ∈ Other ↔ v = y) → ∀ x, SignedSafe x y .Shl → x ∈ A := by
  obtain ⟨Legal, hLegal, hLegalmem, hhalf⟩ := legal_spec hw
  obtain ⟨ShAmt, hShAmt, hboth, hlegal, hends⟩ := intersectWith_part Other hhalf
  have hmem : ∀ y ∈ Other, y.toNat < w → y ∈ ShAmt := fun y hy hlt =>
    hboth y hy ((hLegalmem y).mpr hlt)
  simp only [shlNoWrapRegion, hLegal, hShAmt, Option.bind_eq_bind, Option.bind_some]
  cases hempty : ShAmt.isEmptySet with
  | true =>
    have hnone : ∀ y ∈ Other, ¬y.toNat < w := fun y hy hlt => by
      have hin := hmem y hy hlt
      rw [isEmptySet_iff.mp hempty] at hin
      exact not_mem_getEmpty hw y hin
    simp only [if_true]
    exact ⟨⟨getFull, rfl, fun x _ y hy hlt => absurd hlt (hnone y hy),
      fun y _ x _ => mem_getFull x⟩, ⟨getFull, rfl, fun x _ y hy hlt => absurd hlt (hnone y hy),
      fun y _ x _ => mem_getFull x⟩⟩
  | false =>
    have hlt : ShAmt.getUnsignedMax.toNat < w :=
      (hLegalmem _).mp (hlegal _ (getUnsignedMax_mem hempty))
    have hsingle : ∀ y, (∀ v, v ∈ Other ↔ v = y) → ShAmt.getUnsignedMax = y := fun y hy =>
      getUnsignedMax_of_single hw hy (hends hempty)
    simp only [Bool.false_eq_true, if_false, if_true]
    refine ⟨⟨_, rfl, fun x hx y hy hylt => ?_, fun y hy x hsafe => ?_⟩,
      ⟨_, rfl, fun x hx y hy hylt => ?_, fun y hy x hsafe => ?_⟩⟩
    · have hle := le_getUnsignedMax (hmem y hy hylt)
      have hpow : 2 ^ y.toNat ≤ 2 ^ ShAmt.getUnsignedMax.toNat :=
        Nat.pow_le_pow_right (by decide) hle
      exact Nat.lt_of_le_of_lt (Nat.mul_le_mul_left _ hpow) ((mem_shlUnsigned hlt).mp hx)
    · have heq := hsingle y hy
      rw [heq] at hlt ⊢
      exact (mem_shlUnsigned hlt).mpr (hsafe hlt)
    · have hle := le_getUnsignedMax (hmem y hy hylt)
      exact signedFits_of_le ((mem_shlSigned hlt).mp hx) hle
    · have heq := hsingle y hy
      rw [heq] at hlt ⊢
      exact (mem_shlSigned hlt).mpr (hsafe hlt)

theorem signedFits_mul_between {n a b m : Int} (ha : SignedFits w (n * a))
    (hb : SignedFits w (n * b)) (ham : a ≤ m) (hmb : m ≤ b) : SignedFits w (n * m) := by
  unfold SignedFits at *
  rw [Int.mul_comm n] at *
  rcases Corners.mul_end_le ham hmb n with hlo | hlo <;>
    rcases Corners.le_mul_end ham hmb n with hhi | hhi <;> omega

theorem unsignedRegion_spec (hw : 0 < w) (BinOp : BinaryOps) (Other : ConstantRange w) :
    ∃ A, makeGuaranteedNoWrapRegion BinOp Other NoUnsignedWrap = some A ∧
      (∀ x ∈ A, ∀ y ∈ Other, UnsignedSafe x y BinOp) ∧
      ∀ y, (∀ v, v ∈ Other ↔ v = y) → ∀ x, UnsignedSafe x y BinOp → x ∈ A := by
  have hmax : ∀ y ∈ Other, y.toNat ≤ Other.getUnsignedMax.toNat := fun _ => le_getUnsignedMax
  rw [makeGuaranteedNoWrapRegion, if_pos (Or.inr rfl)]
  cases BinOp with
  | Add =>
    refine ⟨_, rfl, fun x hx y hy => ?_, fun y hy x hsafe => ?_⟩
    · have hlt := (mem_addNoWrapRegion hw).1.mp hx
      have hle := hmax y hy
      unfold UnsignedSafe
      omega
    · refine (mem_addNoWrapRegion hw).1.mpr ?_
      rwa [(extremes_of_single hw hy).1]
  | Sub =>
    refine ⟨_, rfl, fun x hx y hy => ?_, fun y hy x hsafe => ?_⟩
    · exact Nat.le_trans (hmax y hy) ((mem_subNoWrapRegion hw).1.mp hx)
    · refine (mem_subNoWrapRegion hw).1.mpr ?_
      rwa [(extremes_of_single hw hy).1]
  | Mul =>
    obtain ⟨⟨A, hA, hmem⟩, -⟩ := mulNoWrapRegion_exact hw Other
    refine ⟨A, hA, fun x hx y hy => ?_, fun y hy x hsafe => ?_⟩
    · exact Nat.lt_of_le_of_lt (Nat.mul_le_mul_left _ (hmax y hy)) ((hmem x).mp hx)
    · rwa [hmem, (extremes_of_single hw hy).1]
  | Shl => exact (shlNoWrapRegion_spec hw Other).1

theorem signedRegion_spec (hw : 0 < w) (BinOp : BinaryOps) (Other : ConstantRange w) :
    ∃ A, makeGuaranteedNoWrapRegion BinOp Other NoSignedWrap = some A ∧
      (∀ x ∈ A, ∀ y ∈ Other, SignedSafe x y BinOp) ∧
      ∀ y, (∀ v, v ∈ Other ↔ v = y) → ∀ x, SignedSafe x y BinOp → x ∈ A := by
  have hmin : ∀ y ∈ Other, Other.getSignedMin.toInt ≤ y.toInt := fun _ => getSignedMin_le
  have hmax : ∀ y ∈ Other, y.toInt ≤ Other.getSignedMax.toInt := fun _ => le_getSignedMax
  rw [makeGuaranteedNoWrapRegion, if_pos (Or.inl rfl)]
  cases BinOp with
  | Add =>
    refine ⟨_, rfl, fun x hx y hy => ?_, fun y hy x hsafe => ?_⟩
    · have hbounds := (mem_addNoWrapRegion hw).2.mp hx
      have hge := hmin y hy
      have hle := hmax y hy
      unfold SignedSafe SignedFits
      omega
    · refine (mem_addNoWrapRegion hw).2.mpr ?_
      rwa [(extremes_of_single hw hy).2.1, (extremes_of_single hw hy).2.2]
  | Sub =>
    refine ⟨_, rfl, fun x hx y hy => ?_, fun y hy x hsafe => ?_⟩
    · have hbounds := (mem_subNoWrapRegion hw).2.mp hx
      have hge := hmin y hy
      have hle := hmax y hy
      unfold SignedSafe SignedFits
      omega
    · refine (mem_subNoWrapRegion hw).2.mpr ?_
      rwa [(extremes_of_single hw hy).2.1, (extremes_of_single hw hy).2.2]
  | Mul =>
    obtain ⟨-, A, hA, hmem⟩ := mulNoWrapRegion_exact hw Other
    refine ⟨A, hA, fun x hx y hy => ?_, fun y hy x hsafe => ?_⟩
    · obtain ⟨hlo, hhi⟩ := (hmem x).mp hx
      exact signedFits_mul_between hlo hhi (hmin y hy) (hmax y hy)
    · rw [hmem, (extremes_of_single hw hy).2.1, (extremes_of_single hw hy).2.2]
      exact ⟨hsafe, hsafe⟩
  | Shl => exact (shlNoWrapRegion_spec hw Other).2

theorem noWrap_region_sound (hw : 0 < w) (BinOp : BinaryOps) (Other : ConstantRange w)
    {NoWrapKind : BitVec 32} (hkind : NoWrapKind = NoUnsignedWrap ∨ NoWrapKind = NoSignedWrap) :
    ∃ A, makeGuaranteedNoWrapRegion BinOp Other NoWrapKind = some A ∧
      (∀ x ∈ A, ∀ y ∈ Other, NoOverflow BinOp NoWrapKind x y) ∧
      ∀ y, (∀ v, v ∈ Other ↔ v = y) → ∀ x, x ∈ A ↔ NoOverflow BinOp NoWrapKind x y := by
  have hiff : ∀ {A : ConstantRange w} {S : BitVec w → BitVec w → Prop},
      (∀ x ∈ A, ∀ y ∈ Other, S x y) → (∀ y, (∀ v, v ∈ Other ↔ v = y) → ∀ x, S x y → x ∈ A) →
        ∀ y, (∀ v, v ∈ Other ↔ v = y) → ∀ x, x ∈ A ↔ S x y := fun hsound hexact y hy x =>
    ⟨fun hx => hsound x hx y ((hy y).mpr rfl), hexact y hy x⟩
  rcases hkind with rfl | rfl
  · obtain ⟨A, hA, hsound, hexact⟩ := unsignedRegion_spec hw BinOp Other
    exact ⟨A, hA, hsound, hiff hsound hexact⟩
  · obtain ⟨A, hA, hsound, hexact⟩ := signedRegion_spec hw BinOp Other
    exact ⟨A, hA, hsound, hiff hsound hexact⟩

theorem noWrap_region_sound_byte :
    ∃ A, makeGuaranteedNoWrapRegion .Mul (⟨250#8, 5#8, by decide⟩ : ConstantRange 8)
        NoSignedWrap = some A ∧
      (∀ x ∈ A, ∀ y ∈ (⟨250#8, 5#8, by decide⟩ : ConstantRange 8),
        NoOverflow .Mul NoSignedWrap x y) ∧
      ∀ y, (∀ v, v ∈ (⟨250#8, 5#8, by decide⟩ : ConstantRange 8) ↔ v = y) →
        ∀ x, x ∈ A ↔ NoOverflow .Mul NoSignedWrap x y :=
  noWrap_region_sound (by decide) .Mul _ (Or.inr rfl)

end SmlnjLlvm.ConstantRange
