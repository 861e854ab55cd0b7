import SmlnjLlvm.IR.RangeSaturating

/-!
# Addition and subtraction of ranges

The sums of two ranges start at the sum of the lower bounds, and there is one
fewer than the elements of both together. When that is more than there are
words, the computed range is smaller than an operand, and every word is a sum.
-/

namespace SmlnjLlvm.ConstantRange

open Words APIntOps

variable {w : Nat} {X Y R : ConstantRange w} {x y v p q L U : BitVec w}

def ofNewBounds (X Other : ConstantRange w) (NewLower NewUpper : BitVec w) :
    Option (ConstantRange w) :=
  if NewLower = NewUpper then some getFull
  else do
    let R ← ofBounds NewLower NewUpper
    if R.isSizeStrictlySmallerThan X || R.isSizeStrictlySmallerThan Other then some getFull
    else some R

def add (X Other : ConstantRange w) : Option (ConstantRange w) :=
  if X.isEmptySet || Other.isEmptySet then some getEmpty
  else if X.isFullSet || Other.isFullSet then some getFull
  else ofNewBounds X Other (X.Lower + Other.Lower) (X.Upper + Other.Upper - 1)

def sub (X Other : ConstantRange w) : Option (ConstantRange w) :=
  if X.isEmptySet || Other.isEmptySet then some getEmpty
  else if X.isFullSet || Other.isFullSet then some getFull
  else ofNewBounds X Other (X.Lower - Other.Upper + 1) (X.Upper - Other.Lower)

def NoUnsignedWrap : BitVec 32 := 1

def NoSignedWrap : BitVec 32 := 2

def intersectIf (Flag : Bool) (Result CR : ConstantRange w) (RangeType : PreferredRangeType) :
    Option (ConstantRange w) :=
  if Flag then Result.intersectWith CR RangeType else some Result

def addWithNoWrap (X Other : ConstantRange w) (NoWrapKind : BitVec 32)
    (RangeType : PreferredRangeType) : Option (ConstantRange w) :=
  if X.isEmptySet || Other.isEmptySet then some getEmpty
  else if X.isFullSet && Other.isFullSet then some getFull
  else do
    let Result ← X.add Other
    let Result ← intersectIf (NoWrapKind &&& NoSignedWrap ≠ 0) Result (X.sadd_sat Other) RangeType
    intersectIf (NoWrapKind &&& NoUnsignedWrap ≠ 0) Result (X.uadd_sat Other) RangeType

def subWithNoWrap (X Other : ConstantRange w) (NoWrapKind : BitVec 32)
    (RangeType : PreferredRangeType) : Option (ConstantRange w) :=
  if X.isEmptySet || Other.isEmptySet then some getEmpty
  else if X.isFullSet && Other.isFullSet then some getFull
  else do
    let Result ← X.sub Other
    let Result ← intersectIf (NoWrapKind &&& NoSignedWrap ≠ 0) Result (X.ssub_sat Other) RangeType
    if NoWrapKind &&& NoUnsignedWrap ≠ 0 then
      if X.getUnsignedMax.ult Other.getUnsignedMin then some getEmpty
      else Result.intersectWith (X.usub_sat Other) RangeType
    else some Result

theorem mem_iff_sub (hR : R.Lower ≠ R.Upper) :
    v ∈ R ↔ (v - R.Lower).toNat < (R.Upper - R.Lower).toNat := by
  have hne := toNat_ne hR
  have hv := toNat_sub_cases v R.Lower
  have hU := toNat_sub_cases R.Upper R.Lower
  rw [mem_iff hR]
  unfold Arc.Mem
  omega

theorem size_pos (hR : R.Lower ≠ R.Upper) : 0 < (R.Upper - R.Lower).toNat :=
  Nat.zero_lt_of_lt ((mem_iff_sub hR).mp (Lower_mem hR))

def Covers (r : Option (ConstantRange w)) (S : Set (BitVec w)) : Prop :=
  ∃ R, r = some R ∧ ∀ v ∈ S, v ∈ R

theorem Covers.mono {r : Option (ConstantRange w)} {S T : Set (BitVec w)} (h : Covers r T)
    (hsub : S ⊆ T) : Covers r S := by
  obtain ⟨R, rfl, hR⟩ := h
  exact ⟨R, rfl, fun v hv => hR v (hsub hv)⟩

theorem Covers.getFull (S : Set (BitVec w)) : Covers (some getFull) S :=
  ⟨_, rfl, fun v _ => mem_getFull v⟩

theorem Covers.getEmpty {S : Set (BitVec w)} (h : 0 < w → S = ∅) : Covers (some getEmpty) S := by
  refine ⟨_, rfl, fun v hv => ?_⟩
  rcases Nat.eq_zero_or_pos w with hzero | hw
  · exact mem_of_width_zero hzero
  · rw [h hw] at hv
    exact absurd hv (Set.notMem_empty v)

/--
New bounds as far apart as the sizes of two ranges and one less: the range from
the lower of them has the sums of two distances.
-/
theorem ofNewBounds_covers (hX : X.Lower ≠ X.Upper) (hY : Y.Lower ≠ Y.Upper)
    (hsize : U - L = X.Upper - X.Lower + (Y.Upper - Y.Lower) - 1) :
    Covers (ofNewBounds X Y L U) {v | ∃ p q : BitVec w, v - L = p + q ∧
      p.toNat < (X.Upper - X.Lower).toNat ∧ q.toNat < (Y.Upper - Y.Lower).toNat} := by
  have hw : 0 < w := width_pos hX
  unfold ofNewBounds
  by_cases heq : L = U
  · rw [if_pos heq]
    exact Covers.getFull _
  · obtain ⟨R, hR, hbounds⟩ : ∃ R : ConstantRange w, R = ⟨L, U, fun h => absurd h heq⟩ ∧
        R.Lower ≠ R.Upper := ⟨_, rfl, heq⟩
    obtain rfl : R.Lower = L := by rw [hR]
    obtain rfl : R.Upper = U := by rw [hR]
    rw [if_neg heq, ofBounds_of_ne heq, Option.bind_eq_bind, Option.bind_some, ← hR]
    split
    · exact Covers.getFull _
    · next hsmall =>
      refine ⟨R, rfl, ?_⟩
      rintro v ⟨p, q, hv, hp, hq⟩
      rw [Bool.or_eq_true, isSizeStrictlySmallerThan_iff hbounds hX,
        isSizeStrictlySmallerThan_iff hbounds hY, hsize] at hsmall
      have hpos := size_pos hbounds
      rw [mem_iff_sub hbounds, hv]
      rw [hsize] at hpos ⊢
      have hsum := toNat_add_cases (X.Upper - X.Lower) (Y.Upper - Y.Lower)
      have hpred := toNat_sub_one_cases hw (X.Upper - X.Lower + (Y.Upper - Y.Lower))
      have hpq := toNat_add_cases p q
      omega

theorem bounds_of_not_special (hX : X.isEmptySet = false) (hY : Y.isEmptySet = false)
    (hfull : ¬(X.isFullSet || Y.isFullSet) = true) :
    X.Lower ≠ X.Upper ∧ Y.Lower ≠ Y.Upper := by
  rw [← Bool.not_eq_true, isEmptySet_iff] at hX hY
  rw [Bool.or_eq_true, isFullSet_iff, isFullSet_iff, not_or] at hfull
  exact ⟨ne_of_not_full_empty hfull.1 hX, ne_of_not_full_empty hfull.2 hY⟩

def results (X Y : ConstantRange w) (P : BitVec w → BitVec w → Prop)
    (f : BitVec w → BitVec w → BitVec w) : Set (BitVec w) :=
  {v | ∃ x ∈ X, ∃ y ∈ Y, P x y ∧ v = f x y}

variable {P : BitVec w → BitVec w → Prop} {f : BitVec w → BitVec w → BitVec w}

theorem results_of_empty (hempty : (X.isEmptySet || Y.isEmptySet) = true) (hw : 0 < w) :
    results X Y P f = ∅ := by
  rw [Set.eq_empty_iff_forall_notMem]
  rintro v ⟨x, hx, y, hy, -⟩
  rw [isEmptySet_eq_false hw hx, isEmptySet_eq_false hw hy] at hempty
  cases hempty

theorem not_empty_of_not_or (h : ¬(X.isEmptySet || Y.isEmptySet) = true) :
    X.isEmptySet = false ∧ Y.isEmptySet = false := by
  rw [Bool.not_eq_true, Bool.or_eq_false_iff] at h
  exact h

/-- The case of an empty operand, which every operation decides first. -/
theorem Covers.guarded {r : Option (ConstantRange w)}
    (h : X.isEmptySet = false → Y.isEmptySet = false → Covers r (results X Y P f)) :
    Covers (if X.isEmptySet || Y.isEmptySet then some ConstantRange.getEmpty else r)
      (results X Y P f) := by
  split
  · next hempty => exact Covers.getEmpty (results_of_empty hempty)
  · next hempty =>
    obtain ⟨hX, hY⟩ := not_empty_of_not_or hempty
    exact h hX hY

theorem Covers.spec {r : Option (ConstantRange w)} (h : Covers r (results X Y P f)) :
    ∃ Res, r = some Res ∧ (∀ x ∈ X, ∀ y ∈ Y, P x y → f x y ∈ Res) ∧
      (Res.elements = ∅ → ∀ x ∈ X, ∀ y ∈ Y, ¬P x y) := by
  obtain ⟨Res, hRes, hmem⟩ := h
  have hpair : ∀ x ∈ X, ∀ y ∈ Y, P x y → f x y ∈ Res :=
    fun x hx y hy hP => hmem _ ⟨x, hx, y, hy, hP, rfl⟩
  refine ⟨Res, hRes, hpair, ?_⟩
  intro hnone x hx y hy hP
  exact Set.notMem_empty (f x y) (hnone ▸ hpair x hx y hy hP)

theorem add_covers (X Y : ConstantRange w) :
    Covers (X.add Y) (results X Y (fun _ _ => True) (· + ·)) := by
  unfold add
  apply Covers.guarded
  intro hX hY
  by_cases hfull : (X.isFullSet || Y.isFullSet) = true
  · rw [if_pos hfull]
    exact Covers.getFull _
  · rw [if_neg hfull]
    obtain ⟨hX, hY⟩ := bounds_of_not_special hX hY hfull
    refine (ofNewBounds_covers hX hY ?_).mono ?_
    · ring
    · rintro v ⟨x, hx, y, hy, -, rfl⟩
      refine ⟨x - X.Lower, y - Y.Lower, ?_, (mem_iff_sub hX).mp hx, (mem_iff_sub hY).mp hy⟩
      ring

theorem last_sub_lt (hY : Y.Lower ≠ Y.Upper) (hy : y ∈ Y) :
    (Y.Upper - 1 - y).toNat < (Y.Upper - Y.Lower).toNat := by
  have hlt := (mem_iff_sub hY).mp hy
  have heq : Y.Upper - 1 - y = Y.Upper - Y.Lower - (y - Y.Lower) - 1 := by ring
  have hdiff := toNat_sub_cases (Y.Upper - Y.Lower) (y - Y.Lower)
  have hpred := toNat_sub_one_cases (width_pos hY) (Y.Upper - Y.Lower - (y - Y.Lower))
  rw [heq]
  omega

theorem sub_covers (X Y : ConstantRange w) :
    Covers (X.sub Y) (results X Y (fun _ _ => True) (· - ·)) := by
  unfold sub
  apply Covers.guarded
  intro hX hY
  by_cases hfull : (X.isFullSet || Y.isFullSet) = true
  · rw [if_pos hfull]
    exact Covers.getFull _
  · rw [if_neg hfull]
    obtain ⟨hX, hY⟩ := bounds_of_not_special hX hY hfull
    refine (ofNewBounds_covers hX hY ?_).mono ?_
    · ring
    · rintro v ⟨x, hx, y, hy, -, rfl⟩
      refine ⟨x - X.Lower, Y.Upper - 1 - y, ?_, (mem_iff_sub hX).mp hx, last_sub_lt hY hy⟩
      ring

/-! ## Results that do not overflow -/

def AddNoWrap (NoWrapKind : BitVec 32) (x y : BitVec w) : Prop :=
  (NoWrapKind &&& NoSignedWrap ≠ 0 → SignedFits w (x.toInt + y.toInt)) ∧
    (NoWrapKind &&& NoUnsignedWrap ≠ 0 → x.toNat + y.toNat < 2 ^ w)

def SubNoWrap (NoWrapKind : BitVec 32) (x y : BitVec w) : Prop :=
  (NoWrapKind &&& NoSignedWrap ≠ 0 → SignedFits w (x.toInt - y.toInt)) ∧
    (NoWrapKind &&& NoUnsignedWrap ≠ 0 → y.toNat ≤ x.toNat)

variable {r : Option (ConstantRange w)} {S : Set (BitVec w)} {CR : ConstantRange w}
  {RangeType : PreferredRangeType}

theorem Covers.intersectWith (h : Covers (some R) S) (hCR : ∀ v ∈ S, v ∈ CR) :
    Covers (R.intersectWith CR RangeType) S := by
  obtain ⟨R', hR', hS⟩ := h
  obtain rfl : R = R' := Option.some.inj hR'
  obtain ⟨Res, hRes, hhull⟩ := intersectWith_hull R CR RangeType
  exact ⟨Res, hRes, fun v hv => hhull.covers ⟨hS v hv, hCR v hv⟩⟩

theorem Covers.union {T : Set (BitVec w)} {PrefType : PreferredRangeType}
    (h : Covers (some R) S) (h' : Covers (some CR) T) :
    Covers (R.unionWith CR PrefType) (S ∪ T) := by
  obtain ⟨R', hR, hS⟩ := h
  obtain ⟨CR', hCR, hT⟩ := h'
  obtain rfl : R = R' := Option.some.inj hR
  obtain rfl : CR = CR' := Option.some.inj hCR
  obtain ⟨Res, hRes, hhull⟩ := unionWith_hull R CR PrefType
  exact ⟨Res, hRes, fun v hv => hhull.covers (hv.imp (hS v) (hT v))⟩

theorem Covers.bind {k : ConstantRange w → Option (ConstantRange w)} {T : Set (BitVec w)}
    (h : Covers r S) (hk : ∀ R, Covers (some R) S → Covers (k R) T) :
    Covers (r >>= k) T := by
  obtain ⟨R, rfl, hR⟩ := h
  exact hk R ⟨R, rfl, hR⟩

theorem Covers.intersectIf {Flag : Bool} (h : Covers (some R) S)
    (hCR : Flag = true → ∀ v ∈ S, v ∈ CR) :
    Covers (intersectIf Flag R CR RangeType) S := by
  unfold ConstantRange.intersectIf
  split
  · next hflag => exact h.intersectWith (hCR hflag)
  · exact h

theorem eq_of_signed_result {n : Int} {a b : BitVec w} (hfit : SignedFits w n)
    (ha : a.toInt = clampSigned w n) (hb : SignedFits w n → b.toInt = n) : b = a := by
  apply BitVec.eq_of_toInt_eq
  rw [ha, clampSigned_of_fits hfit, hb hfit]

theorem addWithNoWrap_covers (X Y : ConstantRange w) (NoWrapKind : BitVec 32)
    (RangeType : PreferredRangeType) :
    Covers (X.addWithNoWrap Y NoWrapKind RangeType)
      (results X Y (AddNoWrap NoWrapKind) (· + ·)) := by
  unfold addWithNoWrap
  apply Covers.guarded
  intro hX hY
  split
  · exact Covers.getFull _
  · have hsum : Covers (X.add Y) (results X Y (AddNoWrap NoWrapKind) (· + ·)) := by
      apply (add_covers X Y).mono
      rintro v ⟨x, hx, y, hy, -, rfl⟩
      exact ⟨x, hx, y, hy, trivial, rfl⟩
    apply hsum.bind
    intro R hR
    refine Covers.bind (S := results X Y (AddNoWrap NoWrapKind) (· + ·)) ?_ fun R hR => ?_
    · apply hR.intersectIf
      intro hflag
      rw [decide_eq_true_iff] at hflag
      rintro v ⟨x, hx, y, hy, hno, rfl⟩
      rcases Nat.eq_zero_or_pos w with hzero | hw
      · exact mem_of_width_zero hzero
      have heq : x + y = APIntOps.sadd_sat x y :=
        eq_of_signed_result (hno.1 hflag) (toInt_sadd_sat hw x y) (sadd_ov_spec hw x y).value
      dsimp only
      rw [heq]
      exact sadd_sat_mem hw hx hy
    · apply hR.intersectIf
      intro hflag
      rw [decide_eq_true_iff] at hflag
      rintro v ⟨x, hx, y, hy, hno, rfl⟩
      have heq : x + y = APIntOps.uadd_sat x y := by
        apply BitVec.eq_of_toNat_eq
        rw [toNat_uadd_sat, clampUnsigned_of_lt (hno.2 hflag)]
        exact (uadd_ov_spec x y).value (hno.2 hflag)
      dsimp only
      rw [heq]
      exact uadd_sat_mem hx hy

theorem subWithNoWrap_covers (X Y : ConstantRange w) (NoWrapKind : BitVec 32)
    (RangeType : PreferredRangeType) :
    Covers (X.subWithNoWrap Y NoWrapKind RangeType)
      (results X Y (SubNoWrap NoWrapKind) (· - ·)) := by
  unfold subWithNoWrap
  apply Covers.guarded
  intro hX hY
  split
  · exact Covers.getFull _
  · have hdiff : Covers (X.sub Y) (results X Y (SubNoWrap NoWrapKind) (· - ·)) := by
      apply (sub_covers X Y).mono
      rintro v ⟨x, hx, y, hy, -, rfl⟩
      exact ⟨x, hx, y, hy, trivial, rfl⟩
    apply hdiff.bind
    intro R hR
    refine Covers.bind (S := results X Y (SubNoWrap NoWrapKind) (· - ·)) ?_ fun R hR => ?_
    · apply hR.intersectIf
      intro hflag
      rw [decide_eq_true_iff] at hflag
      rintro v ⟨x, hx, y, hy, hno, rfl⟩
      rcases Nat.eq_zero_or_pos w with hzero | hw
      · exact mem_of_width_zero hzero
      have heq : x - y = APIntOps.ssub_sat x y :=
        eq_of_signed_result (hno.1 hflag) (toInt_ssub_sat hw x y) (ssub_ov_spec hw x y).value
      dsimp only
      rw [heq]
      exact ssub_sat_mem hw hx hy
    · split
      · next hflag =>
        split
        · next halways =>
          apply Covers.getEmpty
          intro _
          rw [Set.eq_empty_iff_forall_notMem]
          rintro v ⟨x, hx, y, hy, hno, rfl⟩
          have hle := hno.2 hflag
          have hxb := between_ends hx
          have hyb := between_ends hy
          rw [BitVec.ult, decide_eq_true_iff] at halways
          unfold Between at hxb hyb
          omega
        · apply hR.intersectWith
          rintro v ⟨x, hx, y, hy, hno, rfl⟩
          have heq : x - y = APIntOps.usub_sat x y := by
            apply BitVec.eq_of_toNat_eq
            rw [toNat_usub_sat, toNat_sub_of_le (hno.2 hflag)]
          dsimp only
          rw [heq]
          exact usub_sat_mem hx hy
      · exact hR

end SmlnjLlvm.ConstantRange
