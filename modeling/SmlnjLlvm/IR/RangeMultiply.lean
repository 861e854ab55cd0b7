import SmlnjLlvm.IR.RangeArithmetic
import SmlnjLlvm.IR.RangeCasts

/-!
# Multiplication of ranges

The products are bounded in the double width, where none wraps, once as unsigned
and once as signed numbers. Truncation brings the bounds back to the width of
the operands.
-/

namespace SmlnjLlvm.ConstantRange

open Words APIntOps Support

variable {w d : Nat} {X Y R : ConstantRange w} {x y v C : BitVec w}

/-- The product with the single elements one and minus one. -/
def multiplySingle (C : Option (BitVec w)) (Other : ConstantRange w) :
    Option (Option (ConstantRange w)) :=
  match C with
  | some C =>
    if C = 1 then some (some Other)
    else if C = BitVec.allOnes w then some ((ofAPInt 0).sub Other)
    else none
  | none => none

def multiplyUnsigned (X Other : ConstantRange w) : Option (ConstantRange w) := do
  let this_min := X.getUnsignedMin.setWidth (w * 2)
  let this_max := X.getUnsignedMax.setWidth (w * 2)
  let Other_min := Other.getUnsignedMin.setWidth (w * 2)
  let Other_max := Other.getUnsignedMax.setWidth (w * 2)
  let Result_zext ← ofBounds (this_min * Other_min) (this_max * Other_max + 1)
  Result_zext.truncate w

def multiplySigned (X Other : ConstantRange w) : Option (ConstantRange w) := do
  let this_min := X.getSignedMin.signExtend (w * 2)
  let this_max := X.getSignedMax.signExtend (w * 2)
  let Other_min := Other.getSignedMin.signExtend (w * 2)
  let Other_max := Other.getSignedMax.signExtend (w * 2)
  let Result_sext ← ofBounds (cornerMin (· * ·) this_min this_max Other_min Other_max)
    (cornerMax (· * ·) this_min this_max Other_min Other_max + 1)
  Result_sext.truncate w

def multiply (X Other : ConstantRange w) : Option (ConstantRange w) :=
  if X.isEmptySet || Other.isEmptySet then some getEmpty
  else match multiplySingle X.getSingleElement Other with
  | some r => r
  | none =>
    match multiplySingle Other.getSingleElement X with
    | some r => r
    | none => do
      let UR ← multiplyUnsigned X Other
      if !UR.isUpperWrapped && (!UR.Upper.msb || UR.Upper = BitVec.intMin w) then some UR
      else do
        let SR ← multiplySigned X Other
        some (if UR.isSizeStrictlySmallerThan SR then UR else SR)

def smul_fast (X Other : ConstantRange w) : ConstantRange w :=
  if X.isEmptySet || Other.isEmptySet then getEmpty
  else
    let Min := X.getSignedMin
    let Max := X.getSignedMax
    let OtherMin := Other.getSignedMin
    let OtherMax := Other.getSignedMax
    if (smul_ov Min OtherMin).2 || (smul_ov Min OtherMax).2 || (smul_ov Max OtherMin).2 ||
        (smul_ov Max OtherMax).2 then getFull
    else getNonEmpty (cornerMin (fun A B => (smul_ov A B).1) Min Max OtherMin OtherMax)
      (cornerMax (fun A B => (smul_ov A B).1) Min Max OtherMin OtherMax + 1)

theorem truncate_covers (hd : 0 < d) (h : d < w) (R : ConstantRange w) :
    Covers (R.truncate d) {v | ∃ x ∈ R, v = x.setWidth d} := by
  obtain ⟨Res, hRes, hhull⟩ := truncate_hull hd h R
  refine ⟨Res, hRes, ?_⟩
  rintro v ⟨x, hx, rfl⟩
  exact hhull.covers ⟨x, hx, rfl⟩

theorem mem_single_iff (hw : 0 < w) (h : R.getSingleElement = some C) : x ∈ R ↔ x = C := by
  rw [getSingleElement] at h
  split at h
  · next hupper =>
    obtain rfl : R.Lower = C := Option.some.inj h
    have hone : (1 : BitVec w).toNat = 1 := toNat_one hw
    have hsize : R.Upper - R.Lower = 1 := by
      rw [hupper, BitVec.add_comm, BitVec.add_sub_cancel]
    have hne : R.Lower ≠ R.Upper := by
      intro heq
      rw [← heq, BitVec.sub_self] at hsize
      rw [← hsize] at hone
      cases hone
    rw [mem_iff_sub hne, hsize, hone, Nat.lt_one_iff]
    constructor
    · intro hzero
      have heq : x - R.Lower = 0 := BitVec.eq_of_toNat_eq hzero
      rw [← BitVec.sub_add_cancel x R.Lower, heq, zero_add]
    · rintro rfl
      rw [BitVec.sub_self]
      rfl
  · cases h

theorem mem_ofAPInt (V : BitVec w) : V ∈ ofAPInt V := by
  rcases Nat.eq_zero_or_pos w with hzero | hw
  · exact mem_of_width_zero hzero
  · have hsingle : (ofAPInt V).getSingleElement = some V := if_pos rfl
    exact (mem_single_iff hw hsingle).mpr rfl

/-! ## Products -/

def products (X Y : ConstantRange w) : Set (BitVec w) :=
  results X Y (fun _ _ => True) (· * ·)

theorem products_comm (X Y : ConstantRange w) : products X Y = products Y X := by
  ext v
  constructor
  · rintro ⟨x, hx, y, hy, -, rfl⟩
    exact ⟨y, hy, x, hx, trivial, BitVec.mul_comm x y⟩
  · rintro ⟨y, hy, x, hx, -, rfl⟩
    exact ⟨x, hx, y, hy, trivial, BitVec.mul_comm y x⟩

theorem multiplySingle_covers (hw : 0 < w) {r : Option (ConstantRange w)}
    (h : multiplySingle X.getSingleElement Y = some r) : Covers r (products X Y) := by
  unfold multiplySingle at h
  split at h
  · next C hC =>
    split at h
    · next hone =>
      obtain rfl : some Y = r := Option.some.inj h
      refine ⟨Y, rfl, ?_⟩
      rintro v ⟨x, hx, y, hy, -, rfl⟩
      obtain rfl : x = C := (mem_single_iff hw hC).mp hx
      dsimp only
      rw [hone]
      exact (BitVec.one_mul y).symm ▸ hy
    · split at h
      · next hones =>
        obtain rfl := Option.some.inj h
        apply (sub_covers (ofAPInt 0) Y).mono
        rintro v ⟨x, hx, y, hy, -, rfl⟩
        obtain rfl : x = C := (mem_single_iff hw hC).mp hx
        refine ⟨0, mem_ofAPInt 0, y, hy, trivial, ?_⟩
        change x * y = 0#w - y
        rw [hones, ← BitVec.neg_one_eq_allOnes, BitVec.neg_mul, BitVec.one_mul, BitVec.zero_sub]
      · cases h
  · cases h

theorem mul_lt_double (hw : 0 < w) (a b : BitVec w) : a.toNat * b.toNat + 1 < 2 ^ (w * 2) := by
  have ha := Nat.le_sub_one_of_lt a.isLt
  have hb := Nat.le_sub_one_of_lt b.isLt
  have hpow : 2 ^ (w * 2) = 2 ^ w * 2 ^ w := by rw [Nat.mul_two, Nat.pow_add]
  obtain ⟨M, hM⟩ : ∃ M, 2 ^ w = M + 1 := ⟨2 ^ w - 1, by omega⟩
  have hM_pos : 0 < M := by
    have hlt := Nat.one_lt_two_pow (Nat.ne_of_gt hw)
    omega
  rw [hM, Nat.add_sub_cancel] at ha hb
  rw [hpow, hM]
  nlinarith

theorem toNat_zext_mul (hw : 0 < w) (a b : BitVec w) :
    (a.setWidth (w * 2) * b.setWidth (w * 2)).toNat = a.toNat * b.toNat := by
  have hlt := mul_lt_double hw a b
  rw [BitVec.toNat_mul, toNat_zext (by omega), toNat_zext (by omega), Nat.mod_eq_of_lt (by omega)]

theorem multiplyUnsigned_covers (hw : 0 < w) (hX : X.isEmptySet = false)
    (hY : Y.isEmptySet = false) : Covers (multiplyUnsigned X Y) (products X Y) := by
  have hw2 : 0 < w * 2 := by omega
  have hmin := toNat_zext_mul hw X.getUnsignedMin Y.getUnsignedMin
  have hmax := toNat_zext_mul hw X.getUnsignedMax Y.getUnsignedMax
  have hmax_lt := mul_lt_double hw X.getUnsignedMax Y.getUnsignedMax
  have hle : X.getUnsignedMin.toNat * Y.getUnsignedMin.toNat ≤
      X.getUnsignedMax.toNat * Y.getUnsignedMax.toNat :=
    Nat.mul_le_mul (getUnsignedMin_le_getUnsignedMax hX) (getUnsignedMin_le_getUnsignedMax hY)
  have hne : X.getUnsignedMin.setWidth (w * 2) * Y.getUnsignedMin.setWidth (w * 2) ≠
      X.getUnsignedMax.setWidth (w * 2) * Y.getUnsignedMax.setWidth (w * 2) + 1 := by
    apply ne_of_toNat_ne
    rw [toNat_add_one hw2, hmin, hmax, Nat.mod_eq_of_lt hmax_lt]
    omega
  obtain ⟨R, hR, hmem⟩ := ofBounds_between (by rw [hmin, hmax]; exact hle) hne
  rw [multiplyUnsigned, hR, Option.bind_eq_bind, Option.bind_some]
  apply (truncate_covers (by omega) (by omega) R).mono
  rintro v ⟨x, hx, y, hy, -, rfl⟩
  have hxb := between_ends hx
  have hyb := between_ends hy
  refine ⟨x.setWidth (w * 2) * y.setWidth (w * 2), ?_, ?_⟩
  · rw [hmem, Between, toNat_zext_mul hw x y, hmin, hmax]
    exact ⟨Nat.mul_le_mul hxb.1 hyb.1, Nat.mul_le_mul hxb.2 hyb.2⟩
  · rw [BitVec.setWidth_mul _ _ (by omega), BitVec.setWidth_setWidth_of_le _ (by omega),
      BitVec.setWidth_setWidth_of_le _ (by omega), BitVec.setWidth_eq, BitVec.setWidth_eq]

theorem toInt_sext_double (v : BitVec w) : (v.signExtend (w * 2)).toInt = v.toInt :=
  toInt_sext (by omega) v

theorem toInt_sext_mul (hw : 0 < w) (a b : BitVec w) :
    (a.signExtend (w * 2) * b.signExtend (w * 2)).toInt = a.toInt * b.toInt := by
  have hle : a.toInt * b.toInt ≤ 2 ^ (w * 2 - 2) := BitVec.toInt_mul_toInt_le
  have hge : -(2 ^ (w * 2 - 2)) ≤ a.toInt * b.toInt := BitVec.le_toInt_mul_toInt
  have hpow : (2 : Int) ^ (w * 2 - 1) = 2 * 2 ^ (w * 2 - 2) := by
    rw [← pow_succ']
    congr 1
    omega
  have hpos := int_two_pow_pos (w * 2 - 2)
  rw [toInt_mul_of_fits, toInt_sext_double, toInt_sext_double]
  rw [toInt_sext_double, toInt_sext_double, SignedFits]
  omega

theorem setWidth_sext_mul (x y : BitVec w) :
    (x.signExtend (w * 2) * y.signExtend (w * 2)).setWidth w = x * y := by
  have hback : ∀ a : BitVec w, (a.signExtend (w * 2)).setWidth w = a := by
    intro a
    apply BitVec.eq_of_getLsbD_eq
    intro i hi
    rw [BitVec.getLsbD_setWidth, BitVec.getLsbD_signExtend, if_pos hi, decide_eq_true hi,
      decide_eq_true (by omega : i < w * 2), Bool.true_and, Bool.true_and]
  rw [BitVec.setWidth_mul _ _ (by omega), hback, hback]

theorem multiplySigned_covers (hw : 0 < w) (hX : X.isEmptySet = false)
    (hY : Y.isEmptySet = false) : Covers (multiplySigned X Y) (products X Y) := by
  have hw2 : 0 < w * 2 := by omega
  obtain ⟨f, hf⟩ : ∃ f : BitVec (w * 2) → BitVec (w * 2) → BitVec (w * 2), f = (· * ·) := ⟨_, rfl⟩
  obtain ⟨lo, hlo⟩ : ∃ lo, lo = cornerMin f (X.getSignedMin.signExtend (w * 2))
    (X.getSignedMax.signExtend (w * 2)) (Y.getSignedMin.signExtend (w * 2))
    (Y.getSignedMax.signExtend (w * 2)) := ⟨_, rfl⟩
  obtain ⟨hi, hhi⟩ : ∃ hi, hi = cornerMax f (X.getSignedMin.signExtend (w * 2))
    (X.getSignedMax.signExtend (w * 2)) (Y.getSignedMin.signExtend (w * 2))
    (Y.getSignedMax.signExtend (w * 2)) := ⟨_, rfl⟩
  have hcomputes : ComputesAt f id (X.getSignedMin.signExtend (w * 2))
      (X.getSignedMax.signExtend (w * 2)) (Y.getSignedMin.signExtend (w * 2))
      (Y.getSignedMax.signExtend (w * 2)) := by
    intro A hA B hB
    simp only [List.mem_cons, List.not_mem_nil, or_false] at hA hB
    rw [hf]
    rcases hA with rfl | rfl
    · rcases hB with rfl | rfl
      · rw [toInt_sext_mul hw, toInt_sext_double, toInt_sext_double]
        rfl
      · rw [toInt_sext_mul hw, toInt_sext_double, toInt_sext_double]
        rfl
    · rcases hB with rfl | rfl
      · rw [toInt_sext_mul hw, toInt_sext_double, toInt_sext_double]
        rfl
      · rw [toInt_sext_mul hw, toInt_sext_double, toInt_sext_double]
        rfl
  have hsandwich : ∀ x ∈ X, ∀ y ∈ Y,
      SBetween lo hi (x.signExtend (w * 2) * y.signExtend (w * 2)) := by
    intro x hx y hy
    have hxb := sbetween_ends hx
    have hyb := sbetween_ends hy
    have hxe : SBetween (X.getSignedMin.signExtend (w * 2)) (X.getSignedMax.signExtend (w * 2))
        (x.signExtend (w * 2)) := by
      rwa [SBetween, toInt_sext_double, toInt_sext_double, toInt_sext_double]
    have hye : SBetween (Y.getSignedMin.signExtend (w * 2)) (Y.getSignedMax.signExtend (w * 2))
        (y.signExtend (w * 2)) := by
      rwa [SBetween, toInt_sext_double, toInt_sext_double, toInt_sext_double]
    rw [SBetween, toInt_sext_mul hw, hlo, hhi]
    have hlow := cornerMin_le hcomputes (fun _ _ h => h) hxe hye
    have hhigh := le_cornerMax hcomputes (fun _ _ h => h) hxe hye
    rw [toInt_sext_double, toInt_sext_double] at hlow hhigh
    exact ⟨hlow, hhigh⟩
  have hends := hsandwich _ (getSignedMin_mem hX) _ (getSignedMin_mem hY)
  have hne : lo ≠ hi + 1 := by
    intro heq
    have hall := (sbetween_of_eq (v := BitVec.intMin (w * 2)) hw2
      (Int.le_trans hends.1 hends.2) heq).1
    obtain ⟨A, hA, B, hB, hcorner⟩ := cornerMin_eq f (X.getSignedMin.signExtend (w * 2))
      (X.getSignedMax.signExtend (w * 2)) (Y.getSignedMin.signExtend (w * 2))
      (Y.getSignedMax.signExtend (w * 2))
    have hsmall : ∀ a b : BitVec w, -(2 ^ (w * 2 - 2)) ≤ a.toInt * b.toInt :=
      fun a b => BitVec.le_toInt_mul_toInt
    have hpow : (2 : Int) ^ (w * 2 - 1) = 2 * 2 ^ (w * 2 - 2) := by
      rw [← pow_succ']
      congr 1
      omega
    have hpos := int_two_pow_pos (w * 2 - 2)
    rw [hlo, hcorner, hcomputes A hA B hB, toInt_intMin hw2] at hall
    simp only [List.mem_cons, List.not_mem_nil, or_false, id] at hA hB hall
    have hAB : -(2 ^ (w * 2 - 2)) ≤ A.toInt * B.toInt := by
      rcases hA with rfl | rfl
      · rcases hB with rfl | rfl
        · rw [toInt_sext_double, toInt_sext_double]
          exact hsmall _ _
        · rw [toInt_sext_double, toInt_sext_double]
          exact hsmall _ _
      · rcases hB with rfl | rfl
        · rw [toInt_sext_double, toInt_sext_double]
          exact hsmall _ _
        · rw [toInt_sext_double, toInt_sext_double]
          exact hsmall _ _
    omega
  obtain ⟨R, hR, hmem⟩ := ofBounds_sbetween (Int.le_trans hends.1 hends.2) hne
  have hmultiply : multiplySigned X Y = R.truncate w := by
    rw [multiplySigned, ← hf, ← hlo, ← hhi, hR, Option.bind_eq_bind, Option.bind_some]
  rw [hmultiply]
  apply (truncate_covers (by omega) (by omega) R).mono
  rintro v ⟨x, hx, y, hy, -, rfl⟩
  exact ⟨_, (hmem _).mpr (hsandwich x hx y hy), (setWidth_sext_mul x y).symm⟩

theorem multiply_covers (X Y : ConstantRange w) : Covers (X.multiply Y) (products X Y) := by
  unfold multiply
  apply Covers.guarded
  intro hX hY
  have hw := width_pos_of_not_empty hX
  split
  · next r hr => exact multiplySingle_covers hw hr
  · split
    · next r hr =>
      change Covers r (products X Y)
      rw [products_comm]
      exact multiplySingle_covers hw hr
    · obtain ⟨UR, hUR, hUR_mem⟩ := multiplyUnsigned_covers hw hX hY
      obtain ⟨SR, hSR, hSR_mem⟩ := multiplySigned_covers hw hX hY
      rw [hUR, hSR]
      simp only [Option.bind_eq_bind, Option.bind_some]
      split
      · exact ⟨UR, rfl, hUR_mem⟩
      · split
        · exact ⟨UR, rfl, hUR_mem⟩
        · exact ⟨SR, rfl, hSR_mem⟩

theorem smul_fast_mem (hx : x ∈ X) (hy : y ∈ Y) : x * y ∈ X.smul_fast Y := by
  rcases Nat.eq_zero_or_pos w with hzero | hw
  · exact mem_of_width_zero hzero
  rw [smul_fast, isEmptySet_eq_false hw hx, isEmptySet_eq_false hw hy, Bool.or_false,
    if_neg Bool.false_ne_true]
  dsimp only
  split
  · exact mem_getFull _
  · next hno =>
    simp only [Bool.or_eq_true, not_or, (smul_ov_spec hw _ _).overflow, not_not] at hno
    obtain ⟨⟨⟨h1, h2⟩, h3⟩, h4⟩ := hno
    have hfits : ∀ A ∈ [X.getSignedMin, X.getSignedMax], ∀ B ∈ [Y.getSignedMin, Y.getSignedMax],
        SignedFits w (A.toInt * B.toInt) := by
      simp only [List.mem_cons, List.not_mem_nil, or_false]
      rintro A (rfl | rfl) B (rfl | rfl)
      · exact h1
      · exact h2
      · exact h3
      · exact h4
    have hcomputes : ComputesAt (fun A B => (smul_ov A B).1) id X.getSignedMin X.getSignedMax
        Y.getSignedMin Y.getSignedMax :=
      fun A hA B hB => (smul_ov_spec hw A B).value (hfits A hA B hB)
    have hlow := cornerMin_le hcomputes (fun _ _ h => h) (sbetween_ends hx) (sbetween_ends hy)
    have hhigh := le_cornerMax hcomputes (fun _ _ h => h) (sbetween_ends hx) (sbetween_ends hy)
    have hlow_bound := toInt_bounds hw (cornerMin (fun A B => (smul_ov A B).1) X.getSignedMin
      X.getSignedMax Y.getSignedMin Y.getSignedMax)
    have hhigh_bound := toInt_bounds hw (cornerMax (fun A B => (smul_ov A B).1) X.getSignedMin
      X.getSignedMax Y.getSignedMin Y.getSignedMax)
    have hprod : (x * y).toInt = x.toInt * y.toInt := by
      apply toInt_mul_of_fits
      unfold SignedFits
      simp only [id] at hlow hhigh
      omega
    refine mem_getNonEmpty_signed ?_ ?_
    · rw [hprod]
      exact hlow
    · rw [hprod]
      exact hhigh

end SmlnjLlvm.ConstantRange
