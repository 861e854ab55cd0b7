import SmlnjLlvm.IR.RangeMultiply

/-!
# Minima, maxima and absolute values of ranges

A minimum or a maximum lies between those of the ends, and in one of the
operands. The absolute values of a range that wraps around its sign are those
above the bound that is closer to zero.
-/

namespace SmlnjLlvm.ConstantRange

open Words APIntOps

variable {w : Nat} {X Y R : ConstantRange w} {x y v lo hi L U : BitVec w}

/-- The common part of `smax`, `umax`, `smin` and `umin`, from the new ends on. -/
def minMax (X Other : ConstantRange w) (NewL NewU : BitVec w) (wrapped : Bool)
    (PrefType : PreferredRangeType) : Option (ConstantRange w) :=
  if X.isEmptySet || Other.isEmptySet then some getEmpty
  else
    let Res := getNonEmpty NewL (NewU + 1)
    if wrapped then do
      let Union ← X.unionWith Other PrefType
      Res.intersectWith Union PrefType
    else some Res

def smax (X Other : ConstantRange w) : Option (ConstantRange w) :=
  minMax X Other (APIntOps.smax X.getSignedMin Other.getSignedMin)
    (APIntOps.smax X.getSignedMax Other.getSignedMax)
    (X.isSignWrappedSet || Other.isSignWrappedSet) .Signed

def umax (X Other : ConstantRange w) : Option (ConstantRange w) :=
  minMax X Other (APIntOps.umax X.getUnsignedMin Other.getUnsignedMin)
    (APIntOps.umax X.getUnsignedMax Other.getUnsignedMax)
    (X.isWrappedSet || Other.isWrappedSet) .Unsigned

def smin (X Other : ConstantRange w) : Option (ConstantRange w) :=
  minMax X Other (APIntOps.smin X.getSignedMin Other.getSignedMin)
    (APIntOps.smin X.getSignedMax Other.getSignedMax)
    (X.isSignWrappedSet || Other.isSignWrappedSet) .Signed

def umin (X Other : ConstantRange w) : Option (ConstantRange w) :=
  minMax X Other (APIntOps.umin X.getUnsignedMin Other.getUnsignedMin)
    (APIntOps.umin X.getUnsignedMax Other.getUnsignedMax)
    (X.isWrappedSet || Other.isWrappedSet) .Unsigned

def isStrictlyPositive (V : BitVec w) : Bool := !V.msb && decide (V ≠ 0)

/-- `abs` of a range that wraps around its sign. -/
def absSignWrapped (R : ConstantRange w) (IntMinIsPoison : Bool) : Option (ConstantRange w) :=
  let Lo :=
    if isStrictlyPositive R.Upper || !isStrictlyPositive R.Lower then 0
    else APIntOps.umin R.Lower (-R.Upper + 1)
  if IntMinIsPoison then ofBounds Lo (BitVec.intMin w) else ofBounds Lo (BitVec.intMin w + 1)

def absBetween (SMin SMax : BitVec w) : Option (ConstantRange w) :=
  if !SMin.msb then ofBounds SMin (SMax + 1)
  else if SMax.msb then ofBounds (-SMax) (-SMin + 1)
  else some (getNonEmpty 0 (APIntOps.umax (-SMin) SMax + 1))

def abs (R : ConstantRange w) (IntMinIsPoison : Bool) : Option (ConstantRange w) :=
  if R.isEmptySet then some getEmpty
  else if R.isSignWrappedSet then R.absSignWrapped IntMinIsPoison
  else
    let SMin := R.getSignedMin
    let SMax := R.getSignedMax
    if IntMinIsPoison && decide (SMin = BitVec.intMin w) then
      if SMax = BitVec.intMin w then some getEmpty
      else absBetween (SMin + 1) SMax
    else absBetween SMin SMax

theorem minMax_covers {NewL NewU : BitVec w} {wrapped : Bool} {PrefType : PreferredRangeType}
    {f : BitVec w → BitVec w → BitVec w}
    (hends : ∀ x ∈ X, ∀ y ∈ Y, f x y ∈ getNonEmpty NewL (NewU + 1))
    (hpick : ∀ x y, f x y = x ∨ f x y = y) :
    Covers (minMax X Y NewL NewU wrapped PrefType) (results X Y (fun _ _ => True) f) := by
  unfold minMax
  apply Covers.guarded
  intro _ _
  have hbounds : Covers (some (getNonEmpty NewL (NewU + 1)))
      (results X Y (fun _ _ => True) f) := by
    refine ⟨_, rfl, ?_⟩
    rintro v ⟨x, hx, y, hy, -, rfl⟩
    exact hends x hx y hy
  split
  · obtain ⟨Union, hUnion, hhull⟩ := unionWith_hull X Y PrefType
    rw [hUnion, Option.bind_eq_bind, Option.bind_some]
    apply hbounds.intersectWith
    rintro v ⟨x, hx, y, hy, -, rfl⟩
    rcases hpick x y with heq | heq
    · rw [heq]
      exact hhull.covers (Or.inl hx)
    · rw [heq]
      exact hhull.covers (Or.inr hy)
  · exact hbounds

theorem umin_covers (X Y : ConstantRange w) :
    Covers (X.umin Y) (results X Y (fun _ _ => True) APIntOps.umin) := by
  refine minMax_covers (fun x hx y hy => ?_) fun x y => ite_eq_or_eq _ _ _
  have hxb := between_ends hx
  have hyb := between_ends hy
  refine mem_getNonEmpty ?_ ?_
  · rw [toNat_umin, toNat_umin]
    exact min_le_min hxb.1 hyb.1
  · rw [toNat_umin, toNat_umin]
    exact min_le_min hxb.2 hyb.2

theorem umax_covers (X Y : ConstantRange w) :
    Covers (X.umax Y) (results X Y (fun _ _ => True) APIntOps.umax) := by
  refine minMax_covers (fun x hx y hy => ?_) fun x y => ite_eq_or_eq _ _ _
  have hxb := between_ends hx
  have hyb := between_ends hy
  refine mem_getNonEmpty ?_ ?_
  · rw [toNat_umax, toNat_umax]
    exact max_le_max hxb.1 hyb.1
  · rw [toNat_umax, toNat_umax]
    exact max_le_max hxb.2 hyb.2

theorem smin_covers (X Y : ConstantRange w) :
    Covers (X.smin Y) (results X Y (fun _ _ => True) APIntOps.smin) := by
  refine minMax_covers (fun x hx y hy => ?_) fun x y => ite_eq_or_eq _ _ _
  have hxb := sbetween_ends hx
  have hyb := sbetween_ends hy
  refine mem_getNonEmpty_signed ?_ ?_
  · rw [toInt_smin, toInt_smin]
    exact min_le_min hxb.1 hyb.1
  · rw [toInt_smin, toInt_smin]
    exact min_le_min hxb.2 hyb.2

theorem smax_covers (X Y : ConstantRange w) :
    Covers (X.smax Y) (results X Y (fun _ _ => True) APIntOps.smax) := by
  refine minMax_covers (fun x hx y hy => ?_) fun x y => ite_eq_or_eq _ _ _
  have hxb := sbetween_ends hx
  have hyb := sbetween_ends hy
  refine mem_getNonEmpty_signed ?_ ?_
  · rw [toInt_smax, toInt_smax]
    exact max_le_max hxb.1 hyb.1
  · rw [toInt_smax, toInt_smax]
    exact max_le_max hxb.2 hyb.2

/-! ## Absolute values -/

theorem toNat_abs_cases (hw : 0 < w) (x : BitVec w) :
    (0 ≤ x.toInt ∧ (x.abs.toNat : Int) = x.toInt) ∨
      (x.toInt < 0 ∧ (x.abs.toNat : Int) = -x.toInt) := by
  have hcases := toInt_sign_cases x
  have hneg := toNat_neg_cases x
  have hpow := two_pow_eq hw
  have habs : x.abs = if x.msb then -x else x := rfl
  rcases msb_cases x with ⟨hm, hx⟩ | ⟨hm, hx⟩
  · rw [habs, hm, if_neg Bool.false_ne_true]
    omega
  · rw [habs, hm, if_pos rfl]
    omega

/-- A result that contains a set, and no word above a bound. -/
def CoversUpTo (N : Nat) (r : Option (ConstantRange w)) (S : Set (BitVec w)) : Prop :=
  ∃ R, r = some R ∧ (∀ v ∈ S, v ∈ R) ∧ ∀ v ∈ R, v.toNat ≤ N

theorem CoversUpTo.mono {N : Nat} {r : Option (ConstantRange w)} {S T : Set (BitVec w)}
    (h : CoversUpTo N r T) (hsub : S ⊆ T) : CoversUpTo N r S := by
  obtain ⟨R, rfl, hR, hle⟩ := h
  exact ⟨R, rfl, fun v hv => hR v (hsub hv), hle⟩

theorem CoversUpTo.getEmpty {N : Nat} (hw : 0 < w) {S : Set (BitVec w)} (h : S = ∅) :
    CoversUpTo N (some getEmpty) S := by
  refine ⟨_, rfl, fun v hv => ?_, fun v hv => absurd hv (not_mem_getEmpty hw v)⟩
  rw [h] at hv
  exact absurd hv (Set.notMem_empty v)

theorem isStrictlyPositive_iff (hw : 0 < w) (V : BitVec w) :
    isStrictlyPositive V = true ↔ 0 < V.toInt := by
  have hV := toInt_sign_cases V
  have hpow := two_pow_eq hw
  have hV_ne : V ≠ 0 ↔ V.toNat ≠ 0 := by
    rw [ne_eq, ← BitVec.toNat_inj]
    rfl
  rw [isStrictlyPositive, Bool.and_eq_true, decide_eq_true_iff, hV_ne]
  rcases msb_cases V with ⟨hm, hnat⟩ | ⟨hm, hnat⟩
  · rw [hm, Bool.not_false, eq_self_iff_true, true_and]
    omega
  · rw [hm, Bool.not_true, eq_false Bool.false_ne_true, false_and, false_iff]
    omega

theorem intMax_add_one (hw : 0 < w) : BitVec.intMax w + 1 = BitVec.intMin w := by
  have hpow := two_pow_eq hw
  have hpos := Nat.two_pow_pos (w - 1)
  apply BitVec.eq_of_toNat_eq
  rw [toNat_add_one hw, toNat_intMax, toNat_intMin hw, Nat.mod_eq_of_lt (by omega)]
  omega

theorem mem_iff_of_sign_wrapped (hR : R.Lower ≠ R.Upper) (hslt : R.Upper.toInt < R.Lower.toInt) :
    x ∈ R ↔ R.Lower.toInt ≤ x.toInt ∨ x.toInt < R.Upper.toInt := by
  have hlower := toInt_sign_cases R.Lower
  have hupper := toInt_sign_cases R.Upper
  have hx := toInt_sign_cases x
  rw [mem_iff hR]
  unfold Arc.Mem
  omega

theorem absBetween_covers (hw : 0 < w) {SMin SMax : BitVec w} (hle : SMin.toInt ≤ SMax.toInt) :
    CoversUpTo (2 ^ (w - 1)) (absBetween SMin SMax) {v | ∃ x, SBetween SMin SMax x ∧ v = x.abs} := by
  have hmin := toInt_sign_cases SMin
  have hmax := toInt_sign_cases SMax
  have hpow := two_pow_eq hw
  have hmin_neg := toNat_neg_cases SMin
  have hmax_neg := toNat_neg_cases SMax
  have habs : ∀ x, SBetween SMin SMax x → (0 ≤ x.toInt ∧ (x.abs.toNat : Int) = x.toInt) ∨
      (x.toInt < 0 ∧ (x.abs.toNat : Int) = -x.toInt) := fun x _ => toNat_abs_cases hw x
  unfold absBetween
  rcases msb_cases SMin with ⟨hm, hm_nat⟩ | ⟨hm, hm_nat⟩
  · have hne : SMin ≠ SMax + 1 := by
      apply ne_of_toNat_ne
      have hsucc := toNat_add_one_cases hw SMax
      omega
    obtain ⟨Res, hRes, hmem⟩ := ofBounds_between (by omega) hne
    rw [hm, Bool.not_false, if_pos rfl]
    refine ⟨Res, hRes, ?_, ?_⟩
    · rintro v ⟨x, hx, rfl⟩
      have hcases := habs x hx
      unfold SBetween at hx
      rw [hmem, Between]
      omega
    · intro v hv
      have hle := ((hmem v).mp hv).2
      omega
  · rw [hm, Bool.not_true, if_neg Bool.false_ne_true]
    rcases msb_cases SMax with ⟨hm', hm_nat'⟩ | ⟨hm', hm_nat'⟩
    · rw [hm', if_neg Bool.false_ne_true]
      have hmax_nat := toNat_umax (-SMin) SMax
      refine ⟨_, rfl, ?_, ?_⟩
      · rintro v ⟨x, hx, rfl⟩
        have hcases := habs x hx
        unfold SBetween at hx
        refine mem_getNonEmpty (Nat.zero_le _) ?_
        omega
      · intro v hv
        have hle := ((mem_getNonEmpty_iff (Nat.zero_le _)).mp hv).2
        omega
    · rw [hm', if_pos rfl]
      have hne : -SMax ≠ -SMin + 1 := by
        apply ne_of_toNat_ne
        have hsucc := toNat_add_one_cases hw (-SMin)
        omega
      obtain ⟨Res, hRes, hmem⟩ := ofBounds_between (by omega) hne
      refine ⟨Res, hRes, ?_, ?_⟩
      · rintro v ⟨x, hx, rfl⟩
        have hcases := habs x hx
        unfold SBetween at hx
        rw [hmem, Between]
        omega
      · intro v hv
        have hle := ((hmem v).mp hv).2
        omega

/-- The absolute values that are asked for. -/
def absResults (R : ConstantRange w) (IntMinIsPoison : Bool) : Set (BitVec w) :=
  {v | ∃ x ∈ R, (IntMinIsPoison = true → x ≠ BitVec.intMin w) ∧ v = x.abs}

theorem isSignWrappedSet_iff :
    R.isSignWrappedSet = true ↔ R.Upper.toInt < R.Lower.toInt ∧ R.Upper ≠ BitVec.intMin w := by
  rw [isSignWrappedSet, Bool.and_eq_true, BitVec.slt, decide_eq_true_iff, decide_eq_true_iff]

theorem ne_intMin_iff (hw : 0 < w) (x : BitVec w) :
    x ≠ BitVec.intMin w ↔ -(2 ^ (w - 1) : Int) < x.toInt := by
  have hbounds := toInt_bounds hw x
  have hmin := toInt_intMin hw
  rw [ne_eq, ← BitVec.toInt_inj, hmin]
  omega

theorem absSignWrapped_covers (hR : R.Lower ≠ R.Upper) (hwrap : R.isSignWrappedSet = true)
    (IntMinIsPoison : Bool) :
    CoversUpTo (2 ^ (w - 1)) (R.absSignWrapped IntMinIsPoison)
      (absResults R IntMinIsPoison) := by
  have hw : 0 < w := width_pos hR
  have hpow := two_pow_eq hw
  have hcast := cast_two_pow (w - 1)
  obtain ⟨hslt, hne_min⟩ := isSignWrappedSet_iff.mp hwrap
  rw [ne_intMin_iff hw] at hne_min
  have hlower := toInt_sign_cases R.Lower
  have hupper := toInt_sign_cases R.Upper
  obtain ⟨Lo, hLo⟩ : ∃ Lo : BitVec w, Lo =
    if isStrictlyPositive R.Upper || !isStrictlyPositive R.Lower then 0
    else APIntOps.umin R.Lower (-R.Upper + 1) := ⟨_, rfl⟩
  have hLo_spec : Lo.toNat < 2 ^ (w - 1) ∧ ∀ x ∈ R, Lo.toNat ≤ x.abs.toNat := by
    rw [hLo]
    split
    · exact ⟨Nat.two_pow_pos (w - 1), fun x _ => Nat.zero_le _⟩
    · next hcross =>
      rw [Bool.or_eq_true, Bool.not_eq_true', ← Bool.not_eq_true, isStrictlyPositive_iff hw,
        isStrictlyPositive_iff hw, not_or, not_not] at hcross
      have hneg := toNat_neg_cases R.Upper
      have hsucc := toNat_add_one_cases hw (-R.Upper)
      rw [toNat_umin]
      refine ⟨by omega, fun x hx => ?_⟩
      rw [mem_iff_of_sign_wrapped hR hslt] at hx
      have hcases := toNat_abs_cases hw x
      omega
  have habs_le : ∀ x : BitVec w, x.abs.toNat ≤ 2 ^ (w - 1) ∧
      (x ≠ BitVec.intMin w → x.abs.toNat ≤ 2 ^ (w - 1) - 1) := by
    intro x
    have hcases := toNat_abs_cases hw x
    have hbounds := toInt_bounds hw x
    rw [ne_intMin_iff hw]
    omega
  obtain ⟨hLo_lt, hLo_le⟩ := hLo_spec
  rw [absSignWrapped, ← hLo]
  cases IntMinIsPoison with
  | true =>
    have hmax := toNat_intMax (w := w)
    rw [if_pos rfl, ← intMax_add_one hw]
    have hne : Lo ≠ BitVec.intMax w + 1 := by
      apply ne_of_toNat_ne
      rw [intMax_add_one hw, toNat_intMin hw]
      omega
    obtain ⟨Res, hRes, hmem⟩ := ofBounds_between (by omega) hne
    refine ⟨Res, hRes, ?_, ?_⟩
    · rintro v ⟨x, hx, hno, rfl⟩
      rw [hmem, Between, hmax]
      exact ⟨hLo_le x hx, (habs_le x).2 (hno rfl)⟩
    · intro v hv
      have hle := ((hmem v).mp hv).2
      omega
  | false =>
    have hmin := toNat_intMin hw
    rw [if_neg Bool.false_ne_true]
    have hne : Lo ≠ BitVec.intMin w + 1 := by
      apply ne_of_toNat_ne
      have hsucc := toNat_add_one_cases hw (BitVec.intMin w)
      omega
    obtain ⟨Res, hRes, hmem⟩ := ofBounds_between (by omega) hne
    refine ⟨Res, hRes, ?_, ?_⟩
    · rintro v ⟨x, hx, hno, rfl⟩
      rw [hmem, Between, hmin]
      exact ⟨hLo_le x hx, (habs_le x).1⟩
    · intro v hv
      have hle := ((hmem v).mp hv).2
      omega

theorem abs_coversUpTo (hw : 0 < w) (R : ConstantRange w) (IntMinIsPoison : Bool) :
    CoversUpTo (2 ^ (w - 1)) (R.abs IntMinIsPoison) (absResults R IntMinIsPoison) := by
  unfold abs
  by_cases hempty : R.isEmptySet = true
  · rw [if_pos hempty]
    apply CoversUpTo.getEmpty hw
    rw [Set.eq_empty_iff_forall_notMem]
    rintro v ⟨x, hx, -⟩
    rw [isEmptySet_eq_false hw hx] at hempty
    cases hempty
  rw [if_neg hempty]
  rw [Bool.not_eq_true] at hempty
  by_cases hwrap : R.isSignWrappedSet = true
  · have hR : R.Lower ≠ R.Upper := by
      have hslt := (isSignWrappedSet_iff.mp hwrap).1
      intro heq
      rw [heq] at hslt
      exact absurd hslt (Int.lt_irrefl _)
    rw [if_pos hwrap]
    exact absSignWrapped_covers hR hwrap IntMinIsPoison
  · rw [if_neg hwrap]
    dsimp only
    have hle := getSignedMin_le_getSignedMax hempty
    split
    · next hskip =>
      rw [Bool.and_eq_true, decide_eq_true_iff] at hskip
      split
      · next honly =>
        apply CoversUpTo.getEmpty hw
        rw [Set.eq_empty_iff_forall_notMem]
        rintro v ⟨x, hx, hno, -⟩
        have hxb := sbetween_ends hx
        have hx_ne := (ne_intMin_iff hw x).mp (hno hskip.1)
        rw [SBetween, hskip.2, honly, toInt_intMin hw] at hxb
        omega
      · next honly =>
        have hmax := (ne_intMin_iff hw _).mp honly
        have hmin := toInt_intMin hw
        have hone : (BitVec.intMin w + 1).toInt = -(2 ^ (w - 1)) + 1 := by
          have hcases := toInt_add_one_cases hw (BitVec.intMin w)
          omega
        rw [hskip.2]
        refine (absBetween_covers hw (by omega)).mono ?_
        rintro v ⟨x, hx, hno, rfl⟩
        have hxb := sbetween_ends hx
        have hx_ne := (ne_intMin_iff hw x).mp (hno hskip.1)
        refine ⟨x, ⟨?_, hxb.2⟩, rfl⟩
        omega
    · refine (absBetween_covers hw hle).mono ?_
      rintro v ⟨x, hx, -, rfl⟩
      exact ⟨x, sbetween_ends hx, rfl⟩

theorem abs_covers (hw : 0 < w) (R : ConstantRange w) (IntMinIsPoison : Bool) :
    Covers (R.abs IntMinIsPoison) (absResults R IntMinIsPoison) := by
  obtain ⟨Res, hRes, hmem, -⟩ := abs_coversUpTo hw R IntMinIsPoison
  exact ⟨Res, hRes, hmem⟩

end SmlnjLlvm.ConstantRange
