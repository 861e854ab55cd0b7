import SmlnjLlvm.IR.RangeMinMax

/-!
# Division and remainder of ranges

The quotients of numbers of known signs lie between the quotients of the ends.
The signed division splits both operands by sign, and leaves out the quotient
that overflows by dropping one of its two operands at a time.
-/

namespace SmlnjLlvm.ConstantRange

open Words APIntOps

variable {w : Nat} {X Y R : ConstantRange w} {x y v lo hi L U : BitVec w}

/-! ## Definitions -/

/-- `ConstantRange(L, U + 1)` for quotients, which are not there when a divisor is zero. -/
def ofQuotients (Lower Upper : Option (BitVec w)) : Option (ConstantRange w) := do
  let L ← Lower
  let U ← Upper
  ofBounds L (U + 1)

def udiv (X RHS : ConstantRange w) : Option (ConstantRange w) :=
  if X.isEmptySet || RHS.isEmptySet || decide (RHS.getUnsignedMax = 0) then some getEmpty
  else do
    let Lower ← APIntOps.udiv X.getUnsignedMin RHS.getUnsignedMax
    let RHS_umin :=
      if RHS.getUnsignedMin = 0 then
        if RHS.Upper = 1 then RHS.Lower else 1
      else RHS.getUnsignedMin
    let Upper ← APIntOps.udiv X.getUnsignedMax RHS_umin
    some (getNonEmpty Lower (Upper + 1))

/-- The quotients of two negative ranges without the divisor minus one. -/
def sdivDropMinusOne (RHS NegL NegR PosRes : ConstantRange w) (Lo : BitVec w) :
    Option (ConstantRange w) :=
  -- Skip if it's the only element, as this would leave us with an empty set.
  if NegR.Lower ≠ BitVec.allOnes w then do
    let AdjNegRUpper :=
      if RHS.Lower = BitVec.allOnes w then RHS.Upper
      else NegR.Upper - 1
    let Part ← ofQuotients (some Lo) (APIntOps.sdiv NegL.Lower (AdjNegRUpper - 1))
    PosRes.unionWith Part .Smallest
  else some PosRes

/-- The quotients of two negative ranges without the dividend `SignedMin`. -/
def sdivDropSignedMin (X NegL NegR PosRes : ConstantRange w) (Lo : BitVec w) :
    Option (ConstantRange w) :=
  if NegL.Upper ≠ BitVec.intMin w + 1 then do
    let AdjNegLLower :=
      if X.Upper = BitVec.intMin w + 1 then X.Lower
      else NegL.Lower + 1
    let Part ← ofQuotients (some Lo) (APIntOps.sdiv AdjNegLLower (NegR.Upper - 1))
    PosRes.unionWith Part .Smallest
  else some PosRes

/-- The positive quotients of `NegL` and `NegR`, the negative parts of `X` and `RHS`. -/
def sdivNegNeg (X RHS NegL NegR PosRes : ConstantRange w) : Option (ConstantRange w) := do
  let Lo ← APIntOps.sdiv (NegL.Upper - 1) NegR.Lower
  -- SignedMin / -1 is UB on the IR level, so it is excluded from the bounds.
  if NegL.Lower = BitVec.intMin w ∧ NegR.Upper = 0 then do
    let PosRes ← sdivDropMinusOne RHS NegL NegR PosRes Lo
    sdivDropSignedMin X NegL NegR PosRes Lo
  else do
    let Part ← ofQuotients (some Lo) (APIntOps.sdiv NegL.Lower (NegR.Upper - 1))
    PosRes.unionWith Part .Smallest

def sdivPosRes (X RHS PosL NegL PosR NegR : ConstantRange w) : Option (ConstantRange w) := do
  let PosRes ← (
    if !PosL.isEmptySet && !PosR.isEmptySet then
      ofQuotients (APIntOps.sdiv PosL.Lower (PosR.Upper - 1))
        (APIntOps.sdiv (PosL.Upper - 1) PosR.Lower)
    else some getEmpty)
  if !NegL.isEmptySet && !NegR.isEmptySet then
    sdivNegNeg X RHS NegL NegR PosRes
  else some PosRes

def sdivNegRes (PosL NegL PosR NegR : ConstantRange w) : Option (ConstantRange w) := do
  let NegRes ← (
    if !PosL.isEmptySet && !NegR.isEmptySet then
      ofQuotients (APIntOps.sdiv (PosL.Upper - 1) (NegR.Upper - 1))
        (APIntOps.sdiv PosL.Lower NegR.Lower)
    else some getEmpty)
  if !NegL.isEmptySet && !PosR.isEmptySet then do
    let Part ← ofQuotients (APIntOps.sdiv NegL.Lower PosR.Lower)
      (APIntOps.sdiv (NegL.Upper - 1) (PosR.Upper - 1))
    NegRes.unionWith Part .Smallest
  else some NegRes

/-- There are no positive 1-bit values. The 1 would get interpreted as -1. -/
def PosFilter (w : Nat) : Option (ConstantRange w) :=
  if w = 1 then some getEmpty else ofBounds 1 (BitVec.intMin w)

def NegFilter (w : Nat) : Option (ConstantRange w) := ofBounds (BitVec.intMin w) 0

def sdiv (X RHS : ConstantRange w) : Option (ConstantRange w) := do
  let PosFilter ← PosFilter w
  let NegFilter ← NegFilter w
  let PosL ← X.intersectWith PosFilter .Smallest
  let NegL ← X.intersectWith NegFilter .Smallest
  let PosR ← RHS.intersectWith PosFilter .Smallest
  let NegR ← RHS.intersectWith NegFilter .Smallest
  let PosRes ← sdivPosRes X RHS PosL NegL PosR NegR
  let NegRes ← sdivNegRes PosL NegL PosR NegR
  let Res ← NegRes.unionWith PosRes .Signed
  if X.contains 0 && (!PosR.isEmptySet || !NegR.isEmptySet) then
    Res.unionWith (ofAPInt 0) .Smallest
  else some Res

/-- The special cases of `urem` and `srem` for a divisor that is a single element. -/
def remSingle (rem : BitVec w → BitVec w → Option (BitVec w)) (X RHS : ConstantRange w) :
    Option (Option (ConstantRange w)) :=
  match RHS.getSingleElement with
  | some RHSInt =>
    -- The remainder by null is UB.
    if RHSInt = 0 then some (some getEmpty)
    else
      match X.getSingleElement with
      | some LHSInt => some ((rem LHSInt RHSInt).map ofAPInt)
      | none => none
  | none => none

def urem (X RHS : ConstantRange w) : Option (ConstantRange w) :=
  if X.isEmptySet || RHS.isEmptySet || decide (RHS.getUnsignedMax = 0) then some getEmpty
  else
    match remSingle APIntOps.urem X RHS with
    | some r => r
    | none =>
      if X.getUnsignedMax.ult RHS.getUnsignedMin then some X
      else some (getNonEmpty 0 (APIntOps.umin X.getUnsignedMax (RHS.getUnsignedMax - 1) + 1))

/-- `srem` for divisors whose absolute values lie between two positive ends. -/
def sremAbs (X : ConstantRange w) (MinAbsRHS MaxAbsRHS : BitVec w) : Option (ConstantRange w) :=
  let MinLHS := X.getSignedMin
  let MaxLHS := X.getSignedMax
  if !MinLHS.msb then
    if MaxLHS.ult MinAbsRHS then some X
    else ofBounds 0 (APIntOps.umin MaxLHS (MaxAbsRHS - 1) + 1)
  else if MaxLHS.msb then
    if (-MinAbsRHS).ult MinLHS then some X
    else ofBounds (APIntOps.umax MinLHS (-MaxAbsRHS + 1)) 1
  else
    ofBounds (APIntOps.umax MinLHS (-MaxAbsRHS + 1)) (APIntOps.umin MaxLHS (MaxAbsRHS - 1) + 1)

def srem (X RHS : ConstantRange w) : Option (ConstantRange w) :=
  if X.isEmptySet || RHS.isEmptySet then some getEmpty
  else
    match remSingle APIntOps.srem X RHS with
    | some r => r
    | none => do
        let AbsRHS ← RHS.abs false
        let MinAbsRHS := AbsRHS.getUnsignedMin
        let MaxAbsRHS := AbsRHS.getUnsignedMax
        -- Modulus by zero is UB.
        if MaxAbsRHS = 0 then some getEmpty
        else sremAbs X (if MinAbsRHS = 0 then MinAbsRHS + 1 else MinAbsRHS) MaxAbsRHS

/-- A pair with a quotient. -/
def UnsignedDivides (_x y : BitVec w) : Prop := y ≠ 0

/-- A pair with a signed quotient. -/
def SignedDivides (x y : BitVec w) : Prop :=
  y ≠ 0 ∧ ¬(x = BitVec.intMin w ∧ y = BitVec.allOnes w)

theorem lower_of_upper_one (hw : 0 < w) (hempty : R.isEmptySet = false)
    (hmax : R.getUnsignedMax ≠ 0) (hupper : R.Upper = 1) :
    0 < R.Lower.toNat ∧ ∀ y ∈ R, y ≠ 0 → R.Lower.toNat ≤ y.toNat := by
  have hone : R.Upper.toNat = 1 := by rw [hupper, toNat_one hw]
  rcases full_or_ne hempty with rfl | hR
  · have hall : (getFull : ConstantRange w).Lower = (getFull : ConstantRange w).Upper := rfl
    rw [hall, hone]
    exact ⟨Nat.one_pos, fun y _ hy => Support.toNat_ne_zero.mp hy⟩
  · have hne := toNat_ne hR
    have hpos : 0 < R.Lower.toNat := by
      have hle := (mem_iff hR).mp (getUnsignedMax_mem hempty)
      rw [Support.toNat_ne_zero] at hmax
      unfold Arc.Mem at hle
      omega
    refine ⟨hpos, fun y hy hy_ne => ?_⟩
    rw [Support.toNat_ne_zero] at hy_ne
    rw [mem_iff hR, Arc.mem_of_ge (by omega)] at hy
    omega

theorem unsignedDivides_of_special {f : BitVec w → BitVec w → BitVec w}
    (hspecial : (X.isEmptySet || Y.isEmptySet || decide (Y.getUnsignedMax = 0)) = true)
    (hw : 0 < w) : results X Y UnsignedDivides f = ∅ := by
  rw [Set.eq_empty_iff_forall_notMem]
  rintro v ⟨x, hx, y, hy, hdiv, -⟩
  rw [isEmptySet_eq_false hw hx, isEmptySet_eq_false hw hy, Bool.false_or, Bool.false_or,
    decide_eq_true_iff] at hspecial
  have hyb := between_ends hy
  have hzero : (0 : BitVec w).toNat = 0 := rfl
  rw [UnsignedDivides, Support.toNat_ne_zero] at hdiv
  rw [Between, hspecial] at hyb
  omega

theorem udiv_covers (X Y : ConstantRange w) :
    Covers (X.udiv Y) (results X Y UnsignedDivides (· / ·)) := by
  unfold udiv
  by_cases hspecial : (X.isEmptySet || Y.isEmptySet || decide (Y.getUnsignedMax = 0)) = true
  · rw [if_pos hspecial]
    exact Covers.getEmpty (unsignedDivides_of_special hspecial)
  · rw [if_neg hspecial]
    rw [Bool.or_eq_true, not_or, decide_eq_true_iff] at hspecial
    obtain ⟨hempty, hmax⟩ := hspecial
    obtain ⟨hX, hY⟩ := not_empty_of_not_or hempty
    have hw := width_pos_of_not_empty hX
    -- The smallest divisor that is not zero.
    obtain ⟨D, hD⟩ : ∃ D : BitVec w, D =
        if Y.getUnsignedMin = 0 then if Y.Upper = 1 then Y.Lower else 1
        else Y.getUnsignedMin := ⟨_, rfl⟩
    have hD_spec : 0 < D.toNat ∧ ∀ y ∈ Y, y ≠ 0 → D.toNat ≤ y.toNat := by
      rw [hD]
      split
      · split
        · next hupper => exact lower_of_upper_one hw hY hmax hupper
        · rw [toNat_one hw]
          exact ⟨Nat.one_pos, fun y _ hy => Support.toNat_ne_zero.mp hy⟩
      · next hmin =>
        exact ⟨Support.toNat_ne_zero.mp hmin, fun y hy _ => getUnsignedMin_le hy⟩
    dsimp only
    rw [← hD, udiv_eq _ hmax, udiv_eq _ (Support.toNat_ne_zero.mpr hD_spec.1)]
    simp only [Option.bind_eq_bind, Option.bind_some]
    refine ⟨_, rfl, ?_⟩
    rintro v ⟨x, hx, y, hy, hdiv, rfl⟩
    have hxb := between_ends hx
    have hyb := between_ends hy
    have hy_pos : 0 < y.toNat := Support.toNat_ne_zero.mp hdiv
    refine mem_getNonEmpty ?_ ?_
    · rw [BitVec.toNat_udiv, BitVec.toNat_udiv]
      exact Nat.div_le_div hxb.1 hyb.2 (Nat.ne_of_gt hy_pos)
    · rw [BitVec.toNat_udiv, BitVec.toNat_udiv]
      exact Nat.div_le_div hxb.2 (hD_spec.2 y hy hdiv) (Nat.ne_of_gt hD_spec.1)

/-! ## Remainders -/

variable {P : BitVec w → BitVec w → Prop} {r : Option (ConstantRange w)}

theorem remSingle_covers (hw : 0 < w) {rem : BitVec w → BitVec w → Option (BitVec w)}
    {g : BitVec w → BitVec w → BitVec w} (hrem : ∀ a b, b ≠ 0 → rem a b = some (g a b))
    (hP : ∀ x y, P x y → y ≠ 0) (h : remSingle rem X Y = some r) :
    Covers r (results X Y P g) := by
  unfold remSingle at h
  split at h
  · next C hC =>
    split at h
    · next hzero =>
      obtain rfl := Option.some.inj h
      apply Covers.getEmpty
      intro _
      rw [Set.eq_empty_iff_forall_notMem]
      rintro v ⟨x, hx, y, hy, hxy, -⟩
      exact hP x y hxy (((mem_single_iff hw hC).mp hy).trans hzero)
    · next hne =>
      split at h
      · next D hD =>
        obtain rfl := Option.some.inj h
        rw [hrem D C hne]
        refine ⟨_, rfl, ?_⟩
        rintro v ⟨x, hx, y, hy, -, rfl⟩
        obtain rfl := (mem_single_iff hw hD).mp hx
        obtain rfl := (mem_single_iff hw hC).mp hy
        exact mem_ofAPInt _
      · cases h
  · cases h

theorem urem_covers (X Y : ConstantRange w) :
    Covers (X.urem Y) (results X Y UnsignedDivides (· % ·)) := by
  unfold urem
  by_cases hspecial : (X.isEmptySet || Y.isEmptySet || decide (Y.getUnsignedMax = 0)) = true
  · rw [if_pos hspecial]
    exact Covers.getEmpty (unsignedDivides_of_special hspecial)
  · rw [if_neg hspecial]
    rw [Bool.or_eq_true, not_or, decide_eq_true_iff] at hspecial
    obtain ⟨hempty, hmax⟩ := hspecial
    have hw := width_pos_of_not_empty (not_empty_of_not_or hempty).1
    split
    · next r hr => exact remSingle_covers hw (fun a b hb => urem_eq a hb) (fun _ _ h => h) hr
    · split
      · next hlt =>
        refine ⟨X, rfl, ?_⟩
        rintro v ⟨x, hx, y, hy, -, rfl⟩
        have hxb := between_ends hx
        have hyb := between_ends hy
        have heq : x % y = x := by
          apply BitVec.eq_of_toNat_eq
          rw [BitVec.ult, decide_eq_true_iff] at hlt
          rw [Between] at hxb hyb
          rw [BitVec.toNat_umod, Nat.mod_eq_of_lt (by omega)]
        dsimp only
        rw [heq]
        exact hx
      · refine ⟨_, rfl, ?_⟩
        rintro v ⟨x, hx, y, hy, hdiv, rfl⟩
        have hxb := between_ends hx
        have hyb := between_ends hy
        have hy_pos : 0 < y.toNat := Support.toNat_ne_zero.mp hdiv
        have hle := Nat.mod_le x.toNat y.toNat
        have hlt := Nat.mod_lt x.toNat hy_pos
        have hpred := toNat_sub_one_cases hw Y.getUnsignedMax
        rw [Between] at hxb hyb
        refine mem_getNonEmpty (Nat.zero_le _) ?_
        rw [toNat_umin, BitVec.toNat_umod]
        omega

theorem tmod_cases (a b : Int) (hb : b ≠ 0) :
    (0 ≤ a → 0 ≤ a.tmod b ∧ a.tmod b ≤ a ∧ a.tmod b < b.natAbs) ∧
      (a < 0 → a.tmod b ≤ 0 ∧ a ≤ a.tmod b ∧ -(b.natAbs : Int) < a.tmod b) ∧
      (a.natAbs < b.natAbs → a.tmod b = a) := by
  have habs : (a.tmod b).natAbs = a.natAbs % b.natAbs := Int.natAbs_tmod a b
  have hle := Nat.mod_le a.natAbs b.natAbs
  have hlt := Nat.mod_lt a.natAbs (Int.natAbs_pos.mpr hb)
  have hnonneg : 0 ≤ a → 0 ≤ a.tmod b := fun ha => Int.tmod_nonneg b ha
  have hnonpos : a < 0 → a.tmod b ≤ 0 := by
    intro ha
    have hneg := Int.tmod_nonneg (a := -a) b (by omega)
    rw [Int.neg_tmod] at hneg
    omega
  refine ⟨fun ha => ?_, fun ha => ?_, fun hsmall => ?_⟩
  · have h := hnonneg ha
    omega
  · have h := hnonpos ha
    omega
  · rw [Nat.mod_eq_of_lt hsmall] at habs
    rcases Int.lt_or_le a 0 with ha | ha
    · have h := hnonpos ha
      omega
    · have h := hnonneg ha
      omega

/-- Divisors with absolute values between two positive ends. -/
structure AbsBetween (Y : ConstantRange w) (Min Max : BitVec w) : Prop where
  min_pos : 0 < Min.toNat
  max_le : Max.toNat ≤ 2 ^ (w - 1)
  min_le_max : Min.toNat ≤ Max.toNat
  min_le : ∀ y ∈ Y, y ≠ 0 → Min.toNat ≤ y.toInt.natAbs
  le_max : ∀ y ∈ Y, y.toInt.natAbs ≤ Max.toNat

theorem ofBounds_covers_signed (hw : 0 < w) (hle : lo.toInt ≤ hi.toInt)
    (hends : w = 1 ∨ -(2 ^ (w - 1)) < lo.toInt ∨ hi.toInt < 2 ^ (w - 1) - 1) :
    Covers (ofBounds lo (hi + 1)) {v | SBetween lo hi v} := by
  by_cases heq : lo = hi + 1
  · have hlow := (sbetween_of_eq (v := BitVec.intMin w) hw hle heq).1
    have hhigh := (sbetween_of_eq (v := BitVec.intMax w) hw hle heq).2
    have hbounds := toInt_bounds hw lo
    rw [toInt_intMin hw] at hlow
    rw [toInt_intMax hw] at hhigh
    obtain rfl : w = 1 := by omega
    have hlo : lo = BitVec.allOnes 1 := by
      apply BitVec.eq_of_toInt_eq
      have hones : (BitVec.allOnes 1).toInt = -1 := by decide
      rw [hones]
      omega
    rw [← heq, hlo]
    exact Covers.getFull _
  · obtain ⟨Res, hRes, hmem⟩ := ofBounds_sbetween hle heq
    exact ⟨Res, hRes, fun v hv => (hmem v).mpr hv⟩

theorem one_lt_two_pow_pred (hw : 0 < w) : w = 1 ∨ (1 : Int) < 2 ^ (w - 1) := by
  rcases Nat.eq_or_lt_of_le (Nat.succ_le_of_lt hw) with h | h
  · exact Or.inl h.symm
  · right
    have hpow := Nat.one_lt_two_pow (n := w - 1) (by omega)
    exact_mod_cast hpow

theorem toInt_remUpper (hw : 0 < w) {MaxLHS Max : BitVec w} (hmax : 0 ≤ MaxLHS.toInt)
    (hpos : 0 < Max.toNat) :
    (APIntOps.umin MaxLHS (Max - 1)).toInt = min MaxLHS.toInt (Max.toNat - 1) := by
  have hcases := toInt_sign_cases MaxLHS
  have hpred := toNat_sub_one_cases hw Max
  have hU := toNat_umin MaxLHS (Max - 1)
  have hU_int := toInt_sign_cases (APIntOps.umin MaxLHS (Max - 1))
  omega

/-- The lower end of the remainders of negative dividends. -/
structure IsRemLower (MinLHS Max L : BitVec w) : Prop where
  negative : L.toInt < 0
  le : ∀ r : Int, MinLHS.toInt ≤ r → -(Max.toNat : Int) < r → L.toInt ≤ r
  proper : Max.toNat = 1 ∨ -(2 ^ (w - 1)) < L.toInt

theorem isRemLower (hw : 0 < w) {MinLHS Max : BitVec w} (hmin : MinLHS.toInt < 0)
    (hpos : 0 < Max.toNat) (hle : Max.toNat ≤ 2 ^ (w - 1)) :
    IsRemLower MinLHS Max (APIntOps.umax MinLHS (-Max + 1)) := by
  have hcast := cast_two_pow (w - 1)
  have hcases := toInt_sign_cases MinLHS
  have hneg := toNat_neg_cases Max
  have hsucc := toNat_add_one_cases hw (-Max)
  have hL := toNat_umax MinLHS (-Max + 1)
  have hL_int := toInt_sign_cases (APIntOps.umax MinLHS (-Max + 1))
  refine ⟨by omega, fun r hr hr' => by omega, by omega⟩

/-- What is known of a remainder and of its operands. -/
structure IsRemOf (X : ConstantRange w) (Min Max : BitVec w) (x y r : BitVec w) : Prop where
  ends : X.getSignedMin.toInt ≤ x.toInt ∧ x.toInt ≤ X.getSignedMax.toInt
  divisor : Min.toNat ≤ y.toInt.natAbs ∧ y.toInt.natAbs ≤ Max.toNat
  nonneg : 0 ≤ x.toInt → 0 ≤ r.toInt ∧ r.toInt ≤ x.toInt ∧ r.toInt < y.toInt.natAbs
  neg : x.toInt < 0 → r.toInt ≤ 0 ∧ x.toInt ≤ r.toInt ∧ -(y.toInt.natAbs : Int) < r.toInt
  small : x.toInt.natAbs < y.toInt.natAbs → r ∈ X

theorem AbsBetween.isRemOf {Min Max : BitVec w} (hY : AbsBetween Y Min Max) (hx : x ∈ X)
    (hy : y ∈ Y) (hdiv : SignedDivides x y) : IsRemOf X Min Max x y (x.srem y) := by
  have hy_min := hY.min_le y hy hdiv.1
  have hmin_pos := hY.min_pos
  obtain ⟨hpos, hneg, hsmall⟩ := tmod_cases x.toInt y.toInt (by omega)
  rw [← BitVec.toInt_srem] at hpos hneg hsmall
  refine ⟨sbetween_ends hx, ⟨hy_min, hY.le_max y hy⟩, hpos, hneg, fun hlt => ?_⟩
  rw [BitVec.eq_of_toInt_eq (hsmall hlt)]
  exact hx

theorem sremAbs_covers (hX : X.isEmptySet = false) {Min Max : BitVec w}
    (hY : AbsBetween Y Min Max) :
    Covers (sremAbs X Min Max) (results X Y SignedDivides BitVec.srem) := by
  have hw := width_pos_of_not_empty hX
  have hbig := one_lt_two_pow_pred hw
  have hpow := two_pow_eq hw
  have hle := getSignedMin_le_getSignedMax hX
  have hmax_pos : 0 < Max.toNat := Nat.lt_of_lt_of_le hY.min_pos hY.min_le_max
  have hzero : (0 : BitVec w).toInt = 0 := BitVec.toInt_zero
  have hmin := toInt_sign_cases X.getSignedMin
  have hmax := toInt_sign_cases X.getSignedMax
  unfold sremAbs
  dsimp only
  rcases msb_cases X.getSignedMin with ⟨hm, hm_nat⟩ | ⟨hm, hm_nat⟩
  · have hX_nonneg : 0 ≤ X.getSignedMin.toInt := by omega
    have hU := toInt_remUpper hw (Int.le_trans hX_nonneg hle) hmax_pos
    rw [hm, Bool.not_false, if_pos rfl, BitVec.ult]
    by_cases hlt : X.getSignedMax.toNat < Min.toNat
    · rw [if_pos (decide_eq_true hlt)]
      refine ⟨X, rfl, ?_⟩
      rintro v ⟨x, hx, y, hy, hdiv, rfl⟩
      have hrem := hY.isRemOf hx hy hdiv
      have hends := hrem.ends
      have hdivisor := hrem.divisor
      exact hrem.small (by omega)
    · rw [if_neg (by simpa using hlt)]
      refine (ofBounds_covers_signed hw (by omega) (by omega)).mono ?_
      rintro v ⟨x, hx, y, hy, hdiv, rfl⟩
      have hrem := hY.isRemOf hx hy hdiv
      have hends := hrem.ends
      have hdivisor := hrem.divisor
      have hnonneg := hrem.nonneg (by omega)
      change SBetween _ _ _
      rw [SBetween, hzero, hU]
      omega
  · have hX_neg : X.getSignedMin.toInt < 0 := by
      have hlt := X.getSignedMin.isLt
      omega
    have hL := isRemLower hw hX_neg hmax_pos hY.max_le
    have hL_neg := hL.negative
    have hL_proper := hL.proper
    rw [hm, Bool.not_true, if_neg Bool.false_ne_true]
    rcases msb_cases X.getSignedMax with ⟨hm', hm_nat'⟩ | ⟨hm', hm_nat'⟩
    · have hX_nonneg : 0 ≤ X.getSignedMax.toInt := by omega
      have hU := toInt_remUpper hw hX_nonneg hmax_pos
      rw [hm', if_neg Bool.false_ne_true]
      refine (ofBounds_covers_signed hw (by omega) (by omega)).mono ?_
      rintro v ⟨x, hx, y, hy, hdiv, rfl⟩
      have hrem := hY.isRemOf hx hy hdiv
      have hends := hrem.ends
      have hdivisor := hrem.divisor
      change SBetween _ _ _
      rw [SBetween, hU]
      rcases Int.lt_or_le x.toInt 0 with hx_neg | hx_nonneg
      · have hneg := hrem.neg hx_neg
        exact ⟨hL.le _ (by omega) (by omega), by omega⟩
      · have hnonneg := hrem.nonneg hx_nonneg
        omega
    · rw [hm', if_pos rfl, BitVec.ult]
      by_cases hlt : (-Min).toNat < X.getSignedMin.toNat
      · rw [if_pos (decide_eq_true hlt)]
        refine ⟨X, rfl, ?_⟩
        rintro v ⟨x, hx, y, hy, hdiv, rfl⟩
        have hrem := hY.isRemOf hx hy hdiv
        have hends := hrem.ends
        have hdivisor := hrem.divisor
        have hneg_min := toNat_neg_cases Min
        have hmin_pos := hY.min_pos
        exact hrem.small (by omega)
      · have hone : (1 : BitVec w) = 0 + 1 := (zero_add 1).symm
        have hcovers : Covers (ofBounds (APIntOps.umax X.getSignedMin (-Max + 1)) (0 + 1))
            {v | SBetween (APIntOps.umax X.getSignedMin (-Max + 1)) 0 v} :=
          ofBounds_covers_signed hw (by omega) (by omega)
        rw [← hone] at hcovers
        rw [if_neg (by simpa using hlt)]
        apply hcovers.mono
        rintro v ⟨x, hx, y, hy, hdiv, rfl⟩
        have hrem := hY.isRemOf hx hy hdiv
        have hends := hrem.ends
        have hdivisor := hrem.divisor
        have hneg := hrem.neg (by omega)
        change SBetween _ _ _
        rw [SBetween, hzero]
        exact ⟨hL.le _ (by omega) (by omega), hneg.1⟩

theorem srem_covers (hw : 0 < w) (X Y : ConstantRange w) :
    Covers (X.srem Y) (results X Y SignedDivides BitVec.srem) := by
  unfold srem
  apply Covers.guarded
  intro hX hY
  split
  · next r hr => exact remSingle_covers hw (fun a b hb => srem_eq a hb) (fun _ _ h => h.1) hr
  · obtain ⟨A, hA, hmem, hle⟩ := abs_coversUpTo hw Y false
    have habs : ∀ y ∈ Y, y.abs ∈ A ∧ y.abs.toNat = y.toInt.natAbs := by
      intro y hy
      have hcases := toNat_abs_cases hw y
      exact ⟨hmem _ ⟨y, hy, fun h => absurd h Bool.false_ne_true, rfl⟩, by omega⟩
    have hA_ne : A.isEmptySet = false :=
      isEmptySet_eq_false hw (habs _ (getSignedMin_mem hY)).1
    have hzero : (0 : BitVec w).toNat = 0 := rfl
    rw [hA, Option.bind_eq_bind, Option.bind_some]
    dsimp only
    split
    · next hmax =>
      apply Covers.getEmpty
      intro _
      rw [Set.eq_empty_iff_forall_notMem]
      rintro v ⟨x, hx, y, hy, hdiv, -⟩
      have hyb := between_ends (habs y hy).1
      have hy_abs := (habs y hy).2
      rw [Between, hmax] at hyb
      apply hdiv.1
      apply BitVec.eq_of_toInt_eq
      have hzero' : (0 : BitVec w).toInt = 0 := BitVec.toInt_zero
      rw [hzero']
      omega
    · next hmax =>
      rw [← ne_eq, Support.toNat_ne_zero] at hmax
      have hends := getUnsignedMin_le_getUnsignedMax hA_ne
      have hmax_le := hle _ (getUnsignedMax_mem hA_ne)
      obtain ⟨Min, hMin⟩ : ∃ Min : BitVec w, Min =
          if A.getUnsignedMin = 0 then A.getUnsignedMin + 1 else A.getUnsignedMin := ⟨_, rfl⟩
      have hmin_cases : A.getUnsignedMin.toNat = 0 ∧ Min.toNat = 1 ∨
          0 < A.getUnsignedMin.toNat ∧ Min.toNat = A.getUnsignedMin.toNat := by
        rw [hMin]
        split
        · next hmin =>
          left
          rw [hmin, zero_add, toNat_one hw]
          exact ⟨hzero, rfl⟩
        · next hmin => exact Or.inr ⟨Support.toNat_ne_zero.mp hmin, rfl⟩
      rw [← hMin]
      refine sremAbs_covers hX ⟨by omega, hmax_le, by omega, ?_, ?_⟩
      · intro y hy hy_ne
        have hyb := between_ends (habs y hy).1
        have hy_abs := (habs y hy).2
        have hy_int : y.toInt ≠ 0 := by
          intro heq
          exact hy_ne (BitVec.eq_of_toInt_eq (heq.trans BitVec.toInt_zero.symm))
        rw [Between] at hyb
        omega
      · intro y hy
        have hyb := between_ends (habs y hy).1
        have hy_abs := (habs y hy).2
        rw [Between] at hyb
        omega

/-- The part of a range whose numbers have a sign, with ends in the range. -/
structure SignPart (X P : ConstantRange w) (S : Int → Prop) : Prop where
  covers : ∀ x ∈ X, S x.toInt → x ∈ P
  sign : ∀ x ∈ P, S x.toInt
  first : P.isEmptySet = false → P.Lower ∈ X
  last : P.isEmptySet = false → P.Upper - 1 ∈ X
  between : P.isEmptySet = false → ∀ x ∈ P, SBetween P.Lower (P.Upper - 1) x

/-- The filters are ranges of the numbers of one sign, at most half of all. -/
structure IsFilter (F : ConstantRange w) (S : Int → Prop) : Prop where
  mem_iff : ∀ v, v ∈ F ↔ S v.toInt
  half : 2 * F.elements.ncard ≤ 2 ^ w

/-- A sign, under which the unsigned and the signed order agree. -/
structure IsSign (w : Nat) (S : Int → Prop) : Prop where
  not_zero : ¬S 0
  order : ∀ u v : BitVec w, S u.toInt → S v.toInt → u.toNat ≤ v.toNat → u.toInt ≤ v.toInt

theorem isSign_pos (w : Nat) : IsSign w (0 < ·) := by
  refine ⟨Int.lt_irrefl 0, fun u v hu hv hle => ?_⟩
  have hu_cases := toInt_sign_cases u
  have hv_cases := toInt_sign_cases v
  omega

theorem isSign_neg (w : Nat) : IsSign w (· < 0) := by
  refine ⟨Int.lt_irrefl 0, fun u v hu hv hle => ?_⟩
  have hu_cases := toInt_sign_cases u
  have hv_cases := toInt_sign_cases v
  omega

theorem PosFilter_spec (hw : 0 < w) : ∃ F, PosFilter w = some F ∧ IsFilter F (0 < ·) := by
  have hpow := two_pow_eq hw
  unfold PosFilter
  by_cases hone : w = 1
  · rw [if_pos hone]
    refine ⟨_, rfl, fun v => ?_, ?_⟩
    · have hbounds := toInt_bounds hw v
      subst hone
      refine iff_of_false (not_mem_getEmpty hw v) ?_
      omega
    · rw [elements_getEmpty hw, Set.ncard_empty]
      exact Nat.zero_le _
  · have hbig := one_lt_two_pow_pred hw
    have hcast := cast_two_pow (w - 1)
    have hmin := toNat_intMin hw
    have hnat := toNat_one hw
    have hne : (1 : BitVec w) ≠ BitVec.intMin w := by
      apply ne_of_toNat_ne
      omega
    rw [if_neg hone, ofBounds_of_ne hne]
    refine ⟨_, rfl, fun v => ?_, ?_⟩
    · have hv := toInt_sign_cases v
      rw [mem_iff hne]
      dsimp only
      rw [Arc.mem_of_lt (by omega)]
      omega
    · rw [ncard_elements hne]
      have hsub := toNat_sub_cases (BitVec.intMin w) 1
      dsimp only
      omega

theorem NegFilter_spec (hw : 0 < w) : ∃ F, NegFilter w = some F ∧ IsFilter F (· < 0) := by
  have hpow := two_pow_eq hw
  have hmin := toNat_intMin hw
  have hzero : (0 : BitVec w).toNat = 0 := rfl
  have hne : BitVec.intMin w ≠ 0 := by
    apply ne_of_toNat_ne
    omega
  rw [NegFilter, ofBounds_of_ne hne]
  refine ⟨_, rfl, fun v => ?_, ?_⟩
  · have hv := toInt_sign_cases v
    rw [mem_iff hne]
    dsimp only
    rw [Arc.mem_of_ge (by omega)]
    omega
  · rw [ncard_elements hne]
    have hsub := toNat_sub_cases (0 : BitVec w) (BitVec.intMin w)
    dsimp only
    omega

theorem IsFilter.part {F : ConstantRange w} {S : Int → Prop} (hF : IsFilter F S)
    (hS : IsSign w S) (X : ConstantRange w) :
    ∃ P, X.intersectWith F .Smallest = some P ∧ SignPart X P S := by
  obtain ⟨P, hP, hcovers, hwithin, hends⟩ := intersectWith_part X hF.half
  have hsign : ∀ x ∈ P, S x.toInt := fun x hx => (hF.mem_iff x).mp (hwithin x hx)
  refine ⟨P, hP, fun x hx hx_sign => hcovers x hx ((hF.mem_iff x).mpr hx_sign), hsign,
    fun h => (hends h).1, fun h => (hends h).2, fun hempty x hx => ?_⟩
  have hzero : (0 : BitVec w) ∉ P := by
    intro h
    have h0 := hsign 0 h
    rw [show (0 : BitVec w).toInt = 0 from BitVec.toInt_zero] at h0
    exact hS.not_zero h0
  have hle := (mem_iff_of_zero_not_mem hempty hzero).mp hx
  exact ⟨hS.order _ _ (hsign _ (first_mem hempty)) (hsign x hx) hle.1,
    hS.order _ _ (hsign x hx) (hsign _ (last_mem hempty)) hle.2⟩

/-! ## Signed division: the quotients -/

theorem signedDivides_iff (hw : 0 < w) (x y : BitVec w) :
    SignedDivides x y ↔ y.toInt ≠ 0 ∧ ¬(x.toInt = -(2 ^ (w - 1)) ∧ y.toInt = -1) := by
  have hzero : y ≠ 0 ↔ y.toInt ≠ 0 := by
    rw [ne_eq, ← BitVec.toInt_inj, show (0 : BitVec w).toInt = 0 from BitVec.toInt_zero]
  have hmin : x = BitVec.intMin w ↔ x.toInt = -(2 ^ (w - 1)) := by
    rw [← BitVec.toInt_inj, toInt_intMin hw]
  have hones : y = BitVec.allOnes w ↔ y.toInt = -1 := by
    rw [← BitVec.toInt_inj, BitVec.toInt_allOnes, if_pos hw]
  rw [SignedDivides, hzero, hmin, hones]

theorem SignedDivides.toInt_sdiv (h : SignedDivides x y) :
    (x.sdiv y).toInt = x.toInt.tdiv y.toInt := by
  apply BitVec.toInt_sdiv_of_ne_or_ne
  rw [BitVec.neg_one_eq_allOnes, ← not_and_or]
  exact h.2

variable {A B C D : BitVec w}

theorem ofQuotients_covers (hw : 0 < w) (hAB : SignedDivides A B) (hCD : SignedDivides C D)
    (hle : A.toInt.tdiv B.toInt ≤ C.toInt.tdiv D.toInt)
    (hends : w = 1 ∨ -(2 ^ (w - 1)) < A.toInt.tdiv B.toInt ∨
      C.toInt.tdiv D.toInt < 2 ^ (w - 1) - 1) :
    Covers (ofQuotients (APIntOps.sdiv A B) (APIntOps.sdiv C D))
      {v | A.toInt.tdiv B.toInt ≤ v.toInt ∧ v.toInt ≤ C.toInt.tdiv D.toInt} := by
  rw [← hAB.toInt_sdiv, ← hCD.toInt_sdiv] at *
  rw [ofQuotients, sdiv_eq A hAB.1, sdiv_eq C hCD.1]
  exact ofBounds_covers_signed hw hle hends

theorem ofQuotients_results {Q : BitVec w → BitVec w → Prop} (hw : 0 < w)
    (hAB : SignedDivides A B) (hCD : SignedDivides C D)
    (hle : A.toInt.tdiv B.toInt ≤ C.toInt.tdiv D.toInt)
    (hends : w = 1 ∨ -(2 ^ (w - 1)) < A.toInt.tdiv B.toInt ∨
      C.toInt.tdiv D.toInt < 2 ^ (w - 1) - 1)
    (hbox : ∀ x ∈ X, ∀ y ∈ Y, Q x y → SignedDivides x y ∧
      A.toInt.tdiv B.toInt ≤ x.toInt.tdiv y.toInt ∧
      x.toInt.tdiv y.toInt ≤ C.toInt.tdiv D.toInt) :
    Covers (ofQuotients (APIntOps.sdiv A B) (APIntOps.sdiv C D))
      (results X Y Q BitVec.sdiv) := by
  apply (ofQuotients_covers hw hAB hCD hle hends).mono
  rintro v ⟨x, hx, y, hy, hQ, rfl⟩
  obtain ⟨hdiv, hbounds⟩ := hbox x hx y hy hQ
  rw [← hdiv.toInt_sdiv] at hbounds
  exact hbounds

section Signs

variable {PosL NegL PosR NegR PosRes : ConstantRange w} (hw : 0 < w)
include hw

theorem signedDivides_of_pos (h : 0 < y.toInt) : SignedDivides x y := by
  rw [signedDivides_iff hw]
  omega

theorem signedDivides_of_pos_left (h : 0 < x.toInt) (hy : y.toInt ≠ 0) : SignedDivides x y := by
  have hpos := int_two_pow_pos (w - 1)
  rw [signedDivides_iff hw]
  omega

theorem one_lt_of_pos (h : 0 < x.toInt) : (1 : Int) < 2 ^ (w - 1) := by
  have hbounds := toInt_bounds hw x
  omega

theorem results_of_empty_part {S T : Int → Prop} {L R : ConstantRange w}
    {f : BitVec w → BitVec w → BitVec w} (hL : SignPart X L S) (hR : SignPart Y R T)
    (hempty : ¬(!L.isEmptySet && !R.isEmptySet) = true) :
    results X Y (fun x y => S x.toInt ∧ T y.toInt) f = ∅ := by
  rw [Set.eq_empty_iff_forall_notMem]
  rintro v ⟨x, hx, y, hy, ⟨hx_sign, hy_sign⟩, -⟩
  rw [isEmptySet_eq_false hw (hL.covers x hx hx_sign),
    isEmptySet_eq_false hw (hR.covers y hy hy_sign)] at hempty
  exact hempty rfl

theorem posPos_covers (hL : SignPart X PosL (0 < ·)) (hR : SignPart Y PosR (0 < ·)) :
    Covers (if !PosL.isEmptySet && !PosR.isEmptySet then
        ofQuotients (APIntOps.sdiv PosL.Lower (PosR.Upper - 1))
          (APIntOps.sdiv (PosL.Upper - 1) PosR.Lower)
      else some getEmpty)
      (results X Y (fun x y => 0 < x.toInt ∧ 0 < y.toInt) BitVec.sdiv) := by
  split
  · next hboth =>
    rw [Bool.and_eq_true, Bool.not_eq_true', Bool.not_eq_true'] at hboth
    obtain ⟨hL_ne, hR_ne⟩ := hboth
    have ha := hL.sign _ (first_mem hL_ne)
    have hp := hR.sign _ (first_mem hR_ne)
    have hq := hR.sign _ (last_mem hR_ne)
    have hab := (hL.between hL_ne _ (first_mem hL_ne)).2
    have hpq := (hR.between hR_ne _ (first_mem hR_ne)).2
    have hlow := Int.tdiv_nonneg (Int.le_of_lt ha) (Int.le_of_lt hq)
    have hpos := int_two_pow_pos (w - 1)
    refine ofQuotients_results hw (signedDivides_of_pos hw hq) (signedDivides_of_pos hw hp)
      (Quotients.tdiv_le_tdiv (Int.le_of_lt ha) hab hp hpq) (by omega) ?_
    rintro x hx y hy ⟨hx_pos, hy_pos⟩
    have hxb := hL.between hL_ne x (hL.covers x hx hx_pos)
    have hyb := hR.between hR_ne y (hR.covers y hy hy_pos)
    exact ⟨signedDivides_of_pos hw hy_pos,
      Quotients.tdiv_le_tdiv (Int.le_of_lt ha) hxb.1 hy_pos hyb.2,
      Quotients.tdiv_le_tdiv (Int.le_of_lt hx_pos) hxb.2 hp hyb.1⟩
  · next hboth =>
    exact Covers.getEmpty fun _ => results_of_empty_part hw hL hR hboth

theorem posNeg_covers (hL : SignPart X PosL (0 < ·)) (hR : SignPart Y NegR (· < 0)) :
    Covers (if !PosL.isEmptySet && !NegR.isEmptySet then
        ofQuotients (APIntOps.sdiv (PosL.Upper - 1) (NegR.Upper - 1))
          (APIntOps.sdiv PosL.Lower NegR.Lower)
      else some getEmpty)
      (results X Y (fun x y => 0 < x.toInt ∧ y.toInt < 0) BitVec.sdiv) := by
  split
  · next hboth =>
    rw [Bool.and_eq_true, Bool.not_eq_true', Bool.not_eq_true'] at hboth
    obtain ⟨hL_ne, hR_ne⟩ := hboth
    have ha := hL.sign _ (first_mem hL_ne)
    have hb := hL.sign _ (last_mem hL_ne)
    have hr := hR.sign _ (first_mem hR_ne)
    have hs := hR.sign _ (last_mem hR_ne)
    have hab := (hL.between hL_ne _ (first_mem hL_ne)).2
    have hrs := (hR.between hR_ne _ (first_mem hR_ne)).2
    have hhigh := Int.tdiv_nonneg (b := -NegR.Lower.toInt) (Int.le_of_lt ha) (by omega)
    have hbig := one_lt_of_pos hw ha
    rw [Int.tdiv_neg] at hhigh
    refine ofQuotients_results hw (signedDivides_of_pos_left hw hb (Int.ne_of_lt hs))
      (signedDivides_of_pos_left hw ha (Int.ne_of_lt hr))
      (Quotients.tdiv_le_tdiv_of_neg_right (Int.le_of_lt ha) hab hs hrs) (by omega) ?_
    rintro x hx y hy ⟨hx_pos, hy_neg⟩
    have hxb := hL.between hL_ne x (hL.covers x hx hx_pos)
    have hyb := hR.between hR_ne y (hR.covers y hy hy_neg)
    exact ⟨signedDivides_of_pos_left hw hx_pos (Int.ne_of_lt hy_neg),
      Quotients.tdiv_le_tdiv_of_neg_right (Int.le_of_lt hx_pos) hxb.2 hs hyb.2,
      Quotients.tdiv_le_tdiv_of_neg_right (Int.le_of_lt ha) hxb.1 hy_neg hyb.1⟩
  · next hboth =>
    exact Covers.getEmpty fun _ => results_of_empty_part hw hL hR hboth

theorem negPos_covers {NegRes : ConstantRange w} {S : Set (BitVec w)}
    (hL : SignPart X NegL (· < 0)) (hR : SignPart Y PosR (0 < ·)) (hS : Covers (some NegRes) S) :
    Covers (if !NegL.isEmptySet && !PosR.isEmptySet then do
        let Part ← ofQuotients (APIntOps.sdiv NegL.Lower PosR.Lower)
          (APIntOps.sdiv (NegL.Upper - 1) (PosR.Upper - 1))
        NegRes.unionWith Part .Smallest
      else some NegRes)
      (S ∪ results X Y (fun x y => x.toInt < 0 ∧ 0 < y.toInt) BitVec.sdiv) := by
  split
  · next hboth =>
    rw [Bool.and_eq_true, Bool.not_eq_true', Bool.not_eq_true'] at hboth
    obtain ⟨hL_ne, hR_ne⟩ := hboth
    have hf := hL.sign _ (last_mem hL_ne)
    have hp := hR.sign _ (first_mem hR_ne)
    have hq := hR.sign _ (last_mem hR_ne)
    have hef := (hL.between hL_ne _ (first_mem hL_ne)).2
    have hpq := (hR.between hR_ne _ (first_mem hR_ne)).2
    have hhigh := Int.tdiv_nonneg (a := -(NegL.Upper - 1).toInt) (by omega) (Int.le_of_lt hq)
    have hbig := one_lt_of_pos hw hp
    rw [Int.neg_tdiv] at hhigh
    refine Covers.bind (ofQuotients_results (X := X) (Y := Y)
      (Q := fun x y => x.toInt < 0 ∧ 0 < y.toInt) hw (signedDivides_of_pos hw hp)
      (signedDivides_of_pos hw hq)
      (Quotients.tdiv_le_tdiv_of_neg_left (Int.le_of_lt hf) hef hp hpq) (by omega) ?_)
      fun Part hPart => hS.union hPart
    rintro x hx y hy ⟨hx_neg, hy_pos⟩
    have hxb := hL.between hL_ne x (hL.covers x hx hx_neg)
    have hyb := hR.between hR_ne y (hR.covers y hy hy_pos)
    exact ⟨signedDivides_of_pos hw hy_pos,
      Quotients.tdiv_le_tdiv_of_neg_left (Int.le_of_lt hx_neg) hxb.1 hp hyb.1,
      Quotients.tdiv_le_tdiv_of_neg_left (Int.le_of_lt hf) hxb.2 hy_pos hyb.2⟩
  · next hboth =>
    rw [results_of_empty_part hw hL hR hboth, Set.union_empty]
    exact hS

theorem sdivNegRes_covers (hPosL : SignPart X PosL (0 < ·)) (hNegL : SignPart X NegL (· < 0))
    (hPosR : SignPart Y PosR (0 < ·)) (hNegR : SignPart Y NegR (· < 0)) :
    Covers (sdivNegRes PosL NegL PosR NegR)
      (results X Y (fun x y => 0 < x.toInt ∧ y.toInt < 0) BitVec.sdiv ∪
        results X Y (fun x y => x.toInt < 0 ∧ 0 < y.toInt) BitVec.sdiv) :=
  (posNeg_covers hw hPosL hNegR).bind fun _ hNegRes => negPos_covers hw hNegL hPosR hNegRes

/-! ## Signed division: both negative -/

theorem negNeg_covers {f r : BitVec w} {Q : BitVec w → BitVec w → Prop} {S : Set (BitVec w)}
    (hS : Covers (some PosRes) S) (hf : f.toInt < 0) (hD : D.toInt < 0) (hCf : C.toInt ≤ f.toInt)
    (hrD : r.toInt ≤ D.toInt) (hfr : SignedDivides f r) (hCD : SignedDivides C D)
    (hQ : ∀ x ∈ X, ∀ y ∈ Y, Q x y → SignedDivides x y ∧ SBetween C f x ∧ SBetween r D y) :
    Covers (do
        let Part ← ofQuotients (some (f.sdiv r)) (APIntOps.sdiv C D)
        PosRes.unionWith Part .Smallest) (S ∪ results X Y Q BitVec.sdiv) := by
  have hpos := int_two_pow_pos (w - 1)
  have hlow := Int.tdiv_nonneg_of_nonpos_of_nonpos (a := f.toInt) (b := r.toInt) (by omega) (by omega)
  rw [← sdiv_eq f hfr.1]
  refine Covers.bind (ofQuotients_results (X := X) (Y := Y) (Q := Q) hw hfr hCD
    (Quotients.tdiv_le_tdiv_of_neg (Int.le_of_lt hf) hCf hD hrD) (by omega) ?_)
    fun Part hPart => hS.union hPart
  intro x hx y hy hxy
  obtain ⟨hdiv, hxb, hyb⟩ := hQ x hx y hy hxy
  have hx_neg : x.toInt ≤ 0 := Int.le_trans hxb.2 (Int.le_of_lt hf)
  have hy_neg : y.toInt < 0 := Int.lt_of_le_of_lt hyb.2 hD
  exact ⟨hdiv, Quotients.tdiv_le_tdiv_of_neg (Int.le_of_lt hf) hxb.2 hy_neg hyb.1,
    Quotients.tdiv_le_tdiv_of_neg hx_neg hxb.1 hD hyb.2⟩

/-- Two negative operands with a quotient. -/
def BothNegative (x y : BitVec w) : Prop := x.toInt < 0 ∧ y.toInt < 0 ∧ SignedDivides x y

theorem toInt_eq_neg_one_iff (y : BitVec w) : y = BitVec.allOnes w ↔ y.toInt = -1 := by
  rw [← BitVec.toInt_inj, BitVec.toInt_allOnes, if_pos hw]

theorem adjNegR_spec (hR : SignPart Y NegR (· < 0)) (hempty : NegR.isEmptySet = false)
    (hupper : NegR.Upper = 0) (hne : NegR.Lower ≠ BitVec.allOnes w) :
    ∃ D, D = (if Y.Lower = BitVec.allOnes w then Y.Upper else NegR.Upper - 1) - 1 ∧
      D.toInt < -1 ∧ NegR.Lower.toInt ≤ D.toInt ∧
      ∀ y ∈ Y, y.toInt < 0 → y ≠ BitVec.allOnes w → y.toInt ≤ D.toInt := by
  have hr := hR.sign _ (first_mem hempty)
  rw [ne_eq, toInt_eq_neg_one_iff hw] at hne
  refine ⟨_, rfl, ?_⟩
  split
  · next hlower =>
    have hr_mem := hR.first hempty
    have hr_cases := toInt_sign_cases NegR.Lower
    have hones : (BitVec.allOnes w).toNat = 2 ^ w - 1 := BitVec.toNat_allOnes
    rcases full_or_ne (isEmptySet_eq_false hw hr_mem) with rfl | hY
    · have hupper_ones : (getFull : ConstantRange w).Upper = BitVec.allOnes w := hlower
      have hval := (toInt_eq_neg_one_iff hw _).mp hupper_ones
      have hpred := toInt_sub_one_cases hw (getFull : ConstantRange w).Upper
      have hr_bounds := toInt_bounds hw NegR.Lower
      refine ⟨by omega, by omega, fun y _ hy_neg hy_ne => ?_⟩
      rw [ne_eq, toInt_eq_neg_one_iff hw] at hy_ne
      omega
    · -- The range starts at minus one, and goes on through zero.
      have hmem : ∀ y ∈ Y, y.toNat = 2 ^ w - 1 ∨ y.toNat < Y.Upper.toNat := by
        intro y hy
        have hy_lt := y.isLt
        rw [mem_iff hY, hlower, hones, Arc.mem_of_ge (by omega)] at hy
        omega
      have hne' := toNat_ne hY
      have hpred := toNat_sub_one_cases hw Y.Upper
      have hD := toInt_sign_cases (Y.Upper - 1)
      have hr_lt := hmem _ hr_mem
      refine ⟨by omega, by omega, fun y hy hy_neg hy_ne => ?_⟩
      have hy_cases := toInt_sign_cases y
      have hy_lt := hmem y hy
      rw [ne_eq, toInt_eq_neg_one_iff hw] at hy_ne
      omega
  · have hlast : (NegR.Upper - 1).toInt = -1 := by
      rw [hupper, ← toInt_eq_neg_one_iff hw, ← BitVec.neg_one_eq_allOnes]
      exact zero_sub _
    have hpred := toInt_sub_one_cases hw (NegR.Upper - 1)
    have hr_bounds := toInt_bounds hw NegR.Lower
    refine ⟨by omega, by omega, fun y _ hy_neg hy_ne => ?_⟩
    rw [ne_eq, toInt_eq_neg_one_iff hw] at hy_ne
    omega

theorem adjNegL_spec (hL : SignPart X NegL (· < 0)) (hempty : NegL.isEmptySet = false)
    (hlower : NegL.Lower = BitVec.intMin w) (hne : NegL.Upper ≠ BitVec.intMin w + 1) :
    ∃ A, A = (if X.Upper = BitVec.intMin w + 1 then X.Lower else NegL.Lower + 1) ∧
      -(2 ^ (w - 1)) < A.toInt ∧ A.toInt ≤ (NegL.Upper - 1).toInt ∧
      ∀ x ∈ X, x.toInt < 0 → x ≠ BitVec.intMin w → A.toInt ≤ x.toInt := by
  have hf_ne : (NegL.Upper - 1).toInt ≠ -(2 ^ (w - 1)) := by
    intro heq
    apply hne
    rw [← BitVec.sub_add_cancel NegL.Upper 1]
    congr 1
    rw [← BitVec.toInt_inj, toInt_intMin hw]
    exact heq
  have hf_bounds := toInt_bounds hw (NegL.Upper - 1)
  have hmin := toInt_intMin hw
  refine ⟨_, rfl, ?_⟩
  split
  · next hupper =>
    have hf_mem := hL.last hempty
    have hf_cases := toInt_sign_cases (NegL.Upper - 1)
    have hpow := two_pow_eq hw
    have hcast := cast_two_pow (w - 1)
    have hsucc := toNat_add_one_cases hw (BitVec.intMin w)
    rw [toNat_intMin hw, ← hupper] at hsucc
    rcases full_or_ne (isEmptySet_eq_false hw hf_mem) with rfl | hX
    · -- The full set has the upper bound minus one: there are two bits.
      have hones : (getFull : ConstantRange w).Lower = (getFull : ConstantRange w).Upper := rfl
      have hval := (toInt_eq_neg_one_iff hw (getFull : ConstantRange w).Lower).mp rfl
      have hcases := toInt_sign_cases (getFull : ConstantRange w).Upper
      rw [hones]
      refine ⟨by omega, by omega, fun x _ hx_neg hx_ne => ?_⟩
      rw [ne_intMin_iff hw] at hx_ne
      omega
    · have hmem := fun x => mem_iff (v := x) hX
      have hf_arc := (hmem _).mp hf_mem
      have hL_cases := toInt_sign_cases X.Lower
      unfold Arc.Mem at hf_arc
      refine ⟨by omega, by omega, fun x hx hx_neg hx_ne => ?_⟩
      have hx_arc := (hmem x).mp hx
      have hx_cases := toInt_sign_cases x
      unfold Arc.Mem at hx_arc
      rw [ne_intMin_iff hw] at hx_ne
      omega
  · have hsucc := toInt_add_one_cases hw NegL.Lower
    rw [hlower, hmin] at hsucc
    rw [hlower]
    refine ⟨by omega, by omega, fun x _ hx_neg hx_ne => ?_⟩
    rw [ne_intMin_iff hw] at hx_ne
    omega

variable {S : Set (BitVec w)}

/-- The ends of negative parts with a minimal dividend and the divisor minus one. -/
structure NegParts (X Y NegL NegR : ConstantRange w) : Prop where
  left : SignPart X NegL (· < 0)
  right : SignPart Y NegR (· < 0)
  left_ne : NegL.isEmptySet = false
  right_ne : NegR.isEmptySet = false

omit hw in
theorem NegParts.between (h : NegParts X Y NegL NegR) (hx : x ∈ X) (hy : y ∈ Y)
    (hxy : BothNegative x y) :
    SBetween NegL.Lower (NegL.Upper - 1) x ∧ SBetween NegR.Lower (NegR.Upper - 1) y :=
  ⟨h.left.between h.left_ne x (h.left.covers x hx hxy.1),
    h.right.between h.right_ne y (h.right.covers y hy hxy.2.1)⟩

theorem sdivDropMinusOne_covers (h : NegParts X Y NegL NegR) (hupper : NegR.Upper = 0)
    (hS : Covers (some PosRes) S) :
    Covers (sdivDropMinusOne Y NegL NegR PosRes ((NegL.Upper - 1).sdiv NegR.Lower))
      (S ∪ results X Y (fun x y => BothNegative x y ∧ y ≠ BitVec.allOnes w) BitVec.sdiv) := by
  have hf := h.left.sign _ (last_mem h.left_ne)
  have hef := (h.left.between h.left_ne _ (first_mem h.left_ne)).2
  unfold sdivDropMinusOne
  split
  · next hne =>
    obtain ⟨D, hD, hD_lt, hrD, hmax⟩ := adjNegR_spec hw h.right h.right_ne hupper hne
    dsimp only
    rw [← hD]
    refine negNeg_covers hw hS hf (by omega) hef hrD ?_ ?_ ?_
    · rw [signedDivides_iff hw]
      omega
    · rw [signedDivides_iff hw]
      omega
    · rintro x hx y hy ⟨hxy, hy_ne⟩
      have hbetween := h.between hx hy hxy
      exact ⟨hxy.2.2, hbetween.1, hbetween.2.1, hmax y hy hxy.2.1 hy_ne⟩
  · next hall =>
    rw [ne_eq, not_not, toInt_eq_neg_one_iff hw] at hall
    have hnone : results X Y (fun x y => BothNegative x y ∧ y ≠ BitVec.allOnes w)
        BitVec.sdiv = ∅ := by
      rw [Set.eq_empty_iff_forall_notMem]
      rintro v ⟨x, hx, y, hy, ⟨hxy, hy_ne⟩, -⟩
      have hyb := (h.between hx hy hxy).2
      have hy_neg := hxy.2.1
      rw [ne_eq, toInt_eq_neg_one_iff hw] at hy_ne
      rw [SBetween] at hyb
      omega
    rw [hnone, Set.union_empty]
    exact hS

theorem sdivDropSignedMin_covers (h : NegParts X Y NegL NegR)
    (hlower : NegL.Lower = BitVec.intMin w) (hS : Covers (some PosRes) S) :
    Covers (sdivDropSignedMin X NegL NegR PosRes ((NegL.Upper - 1).sdiv NegR.Lower))
      (S ∪ results X Y (fun x y => BothNegative x y ∧ x ≠ BitVec.intMin w) BitVec.sdiv) := by
  have hs := h.right.sign _ (last_mem h.right_ne)
  have hf := h.left.sign _ (last_mem h.left_ne)
  have hrs := (h.right.between h.right_ne _ (first_mem h.right_ne)).2
  unfold sdivDropSignedMin
  split
  · next hne =>
    obtain ⟨A, hA, hA_lt, hAf, hmin⟩ := adjNegL_spec hw h.left h.left_ne hlower hne
    rw [← hA]
    refine negNeg_covers hw hS hf hs hAf hrs ?_ ?_ ?_
    · rw [signedDivides_iff hw]
      omega
    · rw [signedDivides_iff hw]
      omega
    · rintro x hx y hy ⟨hxy, hx_ne⟩
      have hbetween := h.between hx hy hxy
      exact ⟨hxy.2.2, ⟨hmin x hx hxy.1 hx_ne, hbetween.1.2⟩, hbetween.2⟩
  · next hall =>
    rw [ne_eq, not_not] at hall
    have hlast : (NegL.Upper - 1).toInt = -(2 ^ (w - 1)) := by
      rw [hall, BitVec.add_sub_cancel, toInt_intMin hw]
    have hnone : results X Y (fun x y => BothNegative x y ∧ x ≠ BitVec.intMin w)
        BitVec.sdiv = ∅ := by
      rw [Set.eq_empty_iff_forall_notMem]
      rintro v ⟨x, hx, y, hy, ⟨hxy, hx_ne⟩, -⟩
      have hxb := (h.between hx hy hxy).1
      rw [ne_intMin_iff hw] at hx_ne
      rw [SBetween] at hxb
      omega
    rw [hnone, Set.union_empty]
    exact hS

theorem sdivNegNeg_covers (h : NegParts X Y NegL NegR) (hS : Covers (some PosRes) S) :
    Covers (sdivNegNeg X Y NegL NegR PosRes) (S ∪ results X Y BothNegative BitVec.sdiv) := by
  have hr := h.right.sign _ (first_mem h.right_ne)
  have hs := h.right.sign _ (last_mem h.right_ne)
  have hf := h.left.sign _ (last_mem h.left_ne)
  have hef := (h.left.between h.left_ne _ (first_mem h.left_ne)).2
  have hrs := (h.right.between h.right_ne _ (first_mem h.right_ne)).2
  have hr_ne : NegR.Lower ≠ 0 := by
    intro heq
    rw [heq, show (0 : BitVec w).toInt = 0 from BitVec.toInt_zero] at hr
    exact absurd hr (Int.lt_irrefl 0)
  rw [sdivNegNeg, sdiv_eq _ hr_ne, Option.bind_eq_bind, Option.bind_some]
  split
  · next hspecial =>
    refine Covers.bind (sdivDropMinusOne_covers hw h hspecial.2 hS) fun R hR => ?_
    apply (sdivDropSignedMin_covers hw h hspecial.1 hR).mono
    rw [Set.union_assoc]
    refine Set.union_subset_union_right _ ?_
    -- The pair that is excluded is the only one that neither part has.
    rintro v ⟨x, hx, y, hy, hxy, rfl⟩
    by_cases hy_ne : y = BitVec.allOnes w
    · exact Or.inr ⟨x, hx, y, hy, ⟨hxy, fun hx_eq => hxy.2.2.2 ⟨hx_eq, hy_ne⟩⟩, rfl⟩
    · exact Or.inl ⟨x, hx, y, hy, ⟨hxy, hy_ne⟩, rfl⟩
  · next hspecial =>
    have hends : ¬(NegL.Lower.toInt = -(2 ^ (w - 1)) ∧ (NegR.Upper - 1).toInt = -1) := by
      rw [← toInt_intMin hw, BitVec.toInt_inj, ← toInt_eq_neg_one_iff hw]
      rintro ⟨hlow, hhigh⟩
      refine hspecial ⟨hlow, ?_⟩
      rw [← BitVec.sub_add_cancel NegR.Upper 1, hhigh, ← BitVec.neg_one_eq_allOnes]
      exact neg_add_cancel _
    have he_bounds := toInt_bounds hw NegL.Lower
    refine negNeg_covers hw hS hf hs hef hrs ?_ ?_ ?_
    · rw [signedDivides_iff hw]
      omega
    · rw [signedDivides_iff hw]
      omega
    · intro x hx y hy hxy
      exact ⟨hxy.2.2, h.between hx hy hxy⟩

theorem sdivPosRes_covers (hPosL : SignPart X PosL (0 < ·)) (hNegL : SignPart X NegL (· < 0))
    (hPosR : SignPart Y PosR (0 < ·)) (hNegR : SignPart Y NegR (· < 0)) :
    Covers (sdivPosRes X Y PosL NegL PosR NegR)
      (results X Y (fun x y => 0 < x.toInt ∧ 0 < y.toInt) BitVec.sdiv ∪
        results X Y BothNegative BitVec.sdiv) := by
  refine (posPos_covers hw hPosL hPosR).bind fun R hR => ?_
  split
  · next hboth =>
    rw [Bool.and_eq_true, Bool.not_eq_true', Bool.not_eq_true'] at hboth
    exact sdivNegNeg_covers hw ⟨hNegL, hNegR, hboth.1, hboth.2⟩ hR
  · next hboth =>
    have hnone := results_of_empty_part (f := BitVec.sdiv) hw hNegL hNegR hboth
    have hsub : results X Y BothNegative BitVec.sdiv ⊆
        results X Y (fun x y => x.toInt < 0 ∧ y.toInt < 0) BitVec.sdiv := by
      rintro v ⟨x, hx, y, hy, hxy, rfl⟩
      exact ⟨x, hx, y, hy, ⟨hxy.1, hxy.2.1⟩, rfl⟩
    rw [hnone, Set.subset_empty_iff] at hsub
    rw [hsub, Set.union_empty]
    exact hR

theorem sdiv_covers (X Y : ConstantRange w) :
    Covers (X.sdiv Y) (results X Y SignedDivides BitVec.sdiv) := by
  obtain ⟨F, hF, hF_spec⟩ := PosFilter_spec hw
  obtain ⟨G, hG, hG_spec⟩ := NegFilter_spec hw
  obtain ⟨PosL, hPosL, hPosL_part⟩ := hF_spec.part (isSign_pos w) X
  obtain ⟨NegL, hNegL, hNegL_part⟩ := hG_spec.part (isSign_neg w) X
  obtain ⟨PosR, hPosR, hPosR_part⟩ := hF_spec.part (isSign_pos w) Y
  obtain ⟨NegR, hNegR, hNegR_part⟩ := hG_spec.part (isSign_neg w) Y
  unfold sdiv
  simp only [hF, hG, hPosL, hNegL, hPosR, hNegR, Option.bind_eq_bind, Option.bind_some]
  refine Covers.bind (sdivPosRes_covers hw hPosL_part hNegL_part hPosR_part hNegR_part)
    fun PosRes hPosRes => ?_
  refine Covers.bind (sdivNegRes_covers hw hPosL_part hNegL_part hPosR_part hNegR_part)
    fun NegRes hNegRes => ?_
  refine Covers.bind (hNegRes.union hPosRes) fun Res hRes => ?_
  have hzero : (0 : BitVec w).toInt = 0 := BitVec.toInt_zero
  -- The pairs with a quotient, by their signs.
  have hsigns : ∀ x ∈ X, ∀ y ∈ Y, SignedDivides x y → x ≠ 0 → x.sdiv y ∈
      (results X Y (fun x y => 0 < x.toInt ∧ y.toInt < 0) BitVec.sdiv ∪
        results X Y (fun x y => x.toInt < 0 ∧ 0 < y.toInt) BitVec.sdiv) ∪
      (results X Y (fun x y => 0 < x.toInt ∧ 0 < y.toInt) BitVec.sdiv ∪
        results X Y BothNegative BitVec.sdiv) := by
    intro x hx y hy hdiv hx_ne
    rw [ne_eq, ← BitVec.toInt_inj, hzero] at hx_ne
    have hy_ne := ((signedDivides_iff hw x y).mp hdiv).1
    rcases Int.lt_or_gt_of_ne hx_ne with hx_sign | hx_sign
    · rcases Int.lt_or_gt_of_ne hy_ne with hy_sign | hy_sign
      · exact Or.inr (Or.inr ⟨x, hx, y, hy, ⟨hx_sign, hy_sign, hdiv⟩, rfl⟩)
      · exact Or.inl (Or.inr ⟨x, hx, y, hy, ⟨hx_sign, hy_sign⟩, rfl⟩)
    · rcases Int.lt_or_gt_of_ne hy_ne with hy_sign | hy_sign
      · exact Or.inl (Or.inl ⟨x, hx, y, hy, ⟨hx_sign, hy_sign⟩, rfl⟩)
      · exact Or.inr (Or.inl ⟨x, hx, y, hy, ⟨hx_sign, hy_sign⟩, rfl⟩)
  split
  · have hZero : Covers (some (ofAPInt 0)) {v : BitVec w | v ∈ ofAPInt 0} :=
      ⟨_, rfl, fun v hv => hv⟩
    refine (hRes.union hZero).mono ?_
    rintro v ⟨x, hx, y, hy, hdiv, rfl⟩
    by_cases hx_zero : x = 0
    · right
      rw [hx_zero, show (0 : BitVec w).sdiv y = 0 from BitVec.zero_sdiv]
      exact mem_ofAPInt 0
    · exact Or.inl (hsigns x hx y hy hdiv hx_zero)
  · next hno =>
    apply hRes.mono
    rintro v ⟨x, hx, y, hy, hdiv, rfl⟩
    refine hsigns x hx y hy hdiv ?_
    -- With zero in the dividend, a divisor but zero is in one of the parts.
    rintro rfl
    apply hno
    have hy_ne := ((signedDivides_iff hw 0 y).mp hdiv).1
    rw [Bool.and_eq_true, Bool.or_eq_true, Bool.not_eq_true', Bool.not_eq_true']
    refine ⟨hx, ?_⟩
    rcases Int.lt_or_gt_of_ne hy_ne with hy_sign | hy_sign
    · exact Or.inr (isEmptySet_eq_false hw (hNegR_part.covers y hy hy_sign))
    · exact Or.inl (isEmptySet_eq_false hw (hPosR_part.covers y hy hy_sign))

end Signs

/--
Division and remainder are sound: the results of the pairs that have one are in
the range, which is empty only where no pair has one.
-/
theorem division_sound (hw : 0 < w) (X Y : ConstantRange w) :
    (∃ Res, X.udiv Y = some Res ∧ (∀ x ∈ X, ∀ y ∈ Y, y ≠ 0 → x / y ∈ Res) ∧
      (Res.elements = ∅ → ∀ x ∈ X, ∀ y ∈ Y, ¬y ≠ 0)) ∧
    (∃ Res, X.urem Y = some Res ∧ (∀ x ∈ X, ∀ y ∈ Y, y ≠ 0 → x % y ∈ Res) ∧
      (Res.elements = ∅ → ∀ x ∈ X, ∀ y ∈ Y, ¬y ≠ 0)) ∧
    (∃ Res, X.sdiv Y = some Res ∧ (∀ x ∈ X, ∀ y ∈ Y, SignedDivides x y → x.sdiv y ∈ Res) ∧
      (Res.elements = ∅ → ∀ x ∈ X, ∀ y ∈ Y, ¬SignedDivides x y)) ∧
    ∃ Res, X.srem Y = some Res ∧ (∀ x ∈ X, ∀ y ∈ Y, SignedDivides x y → x.srem y ∈ Res) ∧
      (Res.elements = ∅ → ∀ x ∈ X, ∀ y ∈ Y, ¬SignedDivides x y) :=
  ⟨(udiv_covers X Y).spec, (urem_covers X Y).spec, (sdiv_covers hw X Y).spec,
    (srem_covers hw X Y).spec⟩

/-- The numbers -128 and -127 by those from -1 up to 1: the quotient 127 is found. -/
theorem division_sound_signedMin :
    0 < 8 ∧ ∃ Res, (⟨128, 130, by decide⟩ : ConstantRange 8).sdiv ⟨255, 2, by decide⟩ = some Res ∧
      127 ∈ Res := by
  obtain ⟨Res, hRes, hmem, -⟩ :=
    (division_sound (w := 8) (by decide) ⟨128, 130, by decide⟩ ⟨255, 2, by decide⟩).2.2.1
  exact ⟨by decide, Res, hRes,
    hmem 129 (mem_def.mpr (by decide)) 255 (mem_def.mpr (by decide)) ⟨by decide, by decide⟩⟩

end SmlnjLlvm.ConstantRange
