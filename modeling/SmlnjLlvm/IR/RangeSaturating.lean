import SmlnjLlvm.IR.RangeBounds
import SmlnjLlvm.Support.APIntOps

/-!
# Saturating operations on ranges

A saturating operation clamps the exact result, and the clamp is monotone: the
results of two ranges lie between the results of their ends.
-/

namespace SmlnjLlvm.ConstantRange

open Words APIntOps Corners

variable {w : Nat} {X Y : ConstantRange w} {x y v L U : BitVec w}

/-- The range from `L` to `U`, when neither operand is empty. -/
def hull (X Other : ConstantRange w) (L U : BitVec w) : ConstantRange w :=
  if X.isEmptySet || Other.isEmptySet then getEmpty else getNonEmpty L (U + 1)

def uadd_sat (X Other : ConstantRange w) : ConstantRange w :=
  hull X Other (APIntOps.uadd_sat X.getUnsignedMin Other.getUnsignedMin)
    (APIntOps.uadd_sat X.getUnsignedMax Other.getUnsignedMax)

def sadd_sat (X Other : ConstantRange w) : ConstantRange w :=
  hull X Other (APIntOps.sadd_sat X.getSignedMin Other.getSignedMin)
    (APIntOps.sadd_sat X.getSignedMax Other.getSignedMax)

def usub_sat (X Other : ConstantRange w) : ConstantRange w :=
  hull X Other (APIntOps.usub_sat X.getUnsignedMin Other.getUnsignedMax)
    (APIntOps.usub_sat X.getUnsignedMax Other.getUnsignedMin)

def ssub_sat (X Other : ConstantRange w) : ConstantRange w :=
  hull X Other (APIntOps.ssub_sat X.getSignedMin Other.getSignedMax)
    (APIntOps.ssub_sat X.getSignedMax Other.getSignedMin)

def umul_sat (X Other : ConstantRange w) : ConstantRange w :=
  hull X Other (APIntOps.umul_sat X.getUnsignedMin Other.getUnsignedMin)
    (APIntOps.umul_sat X.getUnsignedMax Other.getUnsignedMax)

/-- `std::min` of a list that starts with `A`, with `slt`. -/
def minSlt (A : BitVec w) (L : List (BitVec w)) : BitVec w :=
  L.foldl (fun smallest B => if B.slt smallest then B else smallest) A

def maxSlt (A : BitVec w) (L : List (BitVec w)) : BitVec w :=
  L.foldl (fun largest B => if largest.slt B then B else largest) A

/-- The least result of `f` on the ends `Min`, `Max` and `OtherMin`, `OtherMax`. -/
def cornerMin (f : BitVec w → BitVec w → BitVec w) (Min Max OtherMin OtherMax : BitVec w) :
    BitVec w :=
  minSlt (f Min OtherMin) [f Min OtherMax, f Max OtherMin, f Max OtherMax]

def cornerMax (f : BitVec w → BitVec w → BitVec w) (Min Max OtherMin OtherMax : BitVec w) :
    BitVec w :=
  maxSlt (f Min OtherMin) [f Min OtherMax, f Max OtherMin, f Max OtherMax]

def smul_sat (X Other : ConstantRange w) : ConstantRange w :=
  let Min := X.getSignedMin
  let Max := X.getSignedMax
  let OtherMin := Other.getSignedMin
  let OtherMax := Other.getSignedMax
  hull X Other (cornerMin APIntOps.smul_sat Min Max OtherMin OtherMax)
    (cornerMax APIntOps.smul_sat Min Max OtherMin OtherMax)

def ushl_sat (X Other : ConstantRange w) : ConstantRange w :=
  hull X Other (APIntOps.ushl_sat X.getUnsignedMin Other.getUnsignedMin)
    (APIntOps.ushl_sat X.getUnsignedMax Other.getUnsignedMax)

def sshl_sat (X Other : ConstantRange w) : ConstantRange w :=
  let Min := X.getSignedMin
  let Max := X.getSignedMax
  let ShAmtMin := Other.getUnsignedMin
  let ShAmtMax := Other.getUnsignedMax
  hull X Other (APIntOps.sshl_sat Min (if !Min.msb then ShAmtMin else ShAmtMax))
    (APIntOps.sshl_sat Max (if Max.msb then ShAmtMin else ShAmtMax))

/-! ## Ends of a hull -/

theorem mem_hull (hx : x ∈ X) (hy : y ∈ Y) (hL : L.toNat ≤ v.toNat) (hU : v.toNat ≤ U.toNat) :
    v ∈ hull X Y L U := by
  rcases Nat.eq_zero_or_pos w with hzero | hw
  · exact mem_of_width_zero hzero
  · rw [hull, isEmptySet_eq_false hw hx, isEmptySet_eq_false hw hy, Bool.or_false,
      if_neg Bool.false_ne_true]
    exact mem_getNonEmpty hL hU

theorem mem_hull_signed (hx : x ∈ X) (hy : y ∈ Y) (hL : L.toInt ≤ v.toInt)
    (hU : v.toInt ≤ U.toInt) : v ∈ hull X Y L U := by
  rcases Nat.eq_zero_or_pos w with hzero | hw
  · exact mem_of_width_zero hzero
  · rw [hull, isEmptySet_eq_false hw hx, isEmptySet_eq_false hw hy, Bool.or_false,
      if_neg Bool.false_ne_true]
    exact mem_getNonEmpty_signed hL hU

theorem minSlt_le (A : BitVec w) (L : List (BitVec w)) :
    ∀ B ∈ A :: L, (minSlt A L).toInt ≤ B.toInt := by
  induction L generalizing A with
  | nil => simp [minSlt]
  | cons C L ih =>
    intro B hB
    have hstep : minSlt A (C :: L) = minSlt (if C.slt A then C else A) L := rfl
    have hfirst := ih (if C.slt A then C else A) _ List.mem_cons_self
    have hA : (if C.slt A then C else A).toInt = min C.toInt A.toInt := toInt_smin C A
    rw [hstep]
    rw [List.mem_cons, List.mem_cons] at hB
    rcases hB with rfl | rfl | hB
    · omega
    · omega
    · exact ih _ B (List.mem_cons_of_mem _ hB)

theorem le_maxSlt (A : BitVec w) (L : List (BitVec w)) :
    ∀ B ∈ A :: L, B.toInt ≤ (maxSlt A L).toInt := by
  induction L generalizing A with
  | nil => simp [maxSlt]
  | cons C L ih =>
    intro B hB
    have hstep : maxSlt A (C :: L) = maxSlt (if A.slt C then C else A) L := rfl
    have hfirst := ih (if A.slt C then C else A) _ List.mem_cons_self
    have hA : (if A.slt C then C else A).toInt = max C.toInt A.toInt := toInt_smax C A
    rw [hstep]
    rw [List.mem_cons, List.mem_cons] at hB
    rcases hB with rfl | rfl | hB
    · omega
    · omega
    · exact ih _ B (List.mem_cons_of_mem _ hB)

theorem minSlt_mem (A : BitVec w) (L : List (BitVec w)) : minSlt A L ∈ A :: L := by
  induction L generalizing A with
  | nil => exact List.mem_cons_self
  | cons C L ih =>
    have hstep : minSlt A (C :: L) = minSlt (if C.slt A then C else A) L := rfl
    have hpick : (if C.slt A then C else A) = C ∨ (if C.slt A then C else A) = A :=
      ite_eq_or_eq _ _ _
    rw [hstep]
    rcases List.mem_cons.mp (ih (if C.slt A then C else A)) with heq | hin
    · rw [heq]
      rcases hpick with h | h
      · simp [h]
      · simp [h]
    · exact List.mem_cons_of_mem _ (List.mem_cons_of_mem _ hin)

/-- What `f` computes on signed numbers, at the ends of two intervals. -/
def ComputesAt (f : BitVec w → BitVec w → BitVec w) (φ : Int → Int)
    (Min Max OtherMin OtherMax : BitVec w) : Prop :=
  ∀ A ∈ [Min, Max], ∀ B ∈ [OtherMin, OtherMax], (f A B).toInt = φ (A.toInt * B.toInt)

variable {f : BitVec w → BitVec w → BitVec w} {φ : Int → Int}
  {Min Max OtherMin OtherMax : BitVec w}

theorem cornerMin_eq (f : BitVec w → BitVec w → BitVec w) (Min Max OtherMin OtherMax : BitVec w) :
    ∃ A ∈ [Min, Max], ∃ B ∈ [OtherMin, OtherMax], cornerMin f Min Max OtherMin OtherMax = f A B := by
  have hmem := minSlt_mem (f Min OtherMin) [f Min OtherMax, f Max OtherMin, f Max OtherMax]
  simp only [List.mem_cons, List.not_mem_nil, or_false] at hmem
  rcases hmem with h | h | h | h
  · exact ⟨Min, by simp, OtherMin, by simp, h⟩
  · exact ⟨Min, by simp, OtherMax, by simp, h⟩
  · exact ⟨Max, by simp, OtherMin, by simp, h⟩
  · exact ⟨Max, by simp, OtherMax, by simp, h⟩

theorem cornerMin_le (hf : ComputesAt f φ Min Max OtherMin OtherMax)
    (hφ : ∀ m n, m ≤ n → φ m ≤ φ n) (hx : SBetween Min Max x) (hy : SBetween OtherMin OtherMax y) :
    (cornerMin f Min Max OtherMin OtherMax).toInt ≤ φ (x.toInt * y.toInt) := by
  have hle := minSlt_le (f Min OtherMin) [f Min OtherMax, f Max OtherMin, f Max OtherMax]
  obtain ⟨p, hp, hpxy⟩ := exists_corner_le hx.1 hx.2 hy.1 hy.2
  apply Int.le_trans _ (hφ _ _ hpxy)
  simp only [corners, List.mem_cons, List.not_mem_nil, or_false] at hp
  rcases hp with rfl | rfl | rfl | rfl
  · rw [← hf Min (by simp) OtherMin (by simp)]
    exact hle _ (by simp)
  · rw [← hf Min (by simp) OtherMax (by simp)]
    exact hle _ (by simp)
  · rw [← hf Max (by simp) OtherMin (by simp)]
    exact hle _ (by simp)
  · rw [← hf Max (by simp) OtherMax (by simp)]
    exact hle _ (by simp)

theorem le_cornerMax (hf : ComputesAt f φ Min Max OtherMin OtherMax)
    (hφ : ∀ m n, m ≤ n → φ m ≤ φ n) (hx : SBetween Min Max x) (hy : SBetween OtherMin OtherMax y) :
    φ (x.toInt * y.toInt) ≤ (cornerMax f Min Max OtherMin OtherMax).toInt := by
  have hle := le_maxSlt (f Min OtherMin) [f Min OtherMax, f Max OtherMin, f Max OtherMax]
  obtain ⟨p, hp, hpxy⟩ := exists_le_corner hx.1 hx.2 hy.1 hy.2
  apply Int.le_trans (hφ _ _ hpxy)
  simp only [corners, List.mem_cons, List.not_mem_nil, or_false] at hp
  rcases hp with rfl | rfl | rfl | rfl
  · rw [← hf Min (by simp) OtherMin (by simp)]
    exact hle _ (by simp)
  · rw [← hf Min (by simp) OtherMax (by simp)]
    exact hle _ (by simp)
  · rw [← hf Max (by simp) OtherMin (by simp)]
    exact hle _ (by simp)
  · rw [← hf Max (by simp) OtherMax (by simp)]
    exact hle _ (by simp)

theorem between_ends (hx : x ∈ X) : Between X.getUnsignedMin X.getUnsignedMax x :=
  ⟨getUnsignedMin_le hx, le_getUnsignedMax hx⟩

theorem sbetween_ends (hx : x ∈ X) : SBetween X.getSignedMin X.getSignedMax x :=
  ⟨getSignedMin_le hx, le_getSignedMax hx⟩

/-! ## Soundness -/

theorem uadd_sat_mem (hx : x ∈ X) (hy : y ∈ Y) : APIntOps.uadd_sat x y ∈ X.uadd_sat Y := by
  have hxb := between_ends hx
  have hyb := between_ends hy
  refine mem_hull hx hy ?_ ?_
  · rw [toNat_uadd_sat, toNat_uadd_sat]
    exact clampUnsigned_mono (Nat.add_le_add hxb.1 hyb.1)
  · rw [toNat_uadd_sat, toNat_uadd_sat]
    exact clampUnsigned_mono (Nat.add_le_add hxb.2 hyb.2)

theorem usub_sat_mem (hx : x ∈ X) (hy : y ∈ Y) : APIntOps.usub_sat x y ∈ X.usub_sat Y := by
  have hxb := between_ends hx
  have hyb := between_ends hy
  refine mem_hull hx hy ?_ ?_
  · rw [toNat_usub_sat, toNat_usub_sat]
    exact Nat.le_trans (Nat.sub_le_sub_right hxb.1 _) (Nat.sub_le_sub_left hyb.2 _)
  · rw [toNat_usub_sat, toNat_usub_sat]
    exact Nat.le_trans (Nat.sub_le_sub_right hxb.2 _) (Nat.sub_le_sub_left hyb.1 _)

section Signed

variable (hw : 0 < w)
include hw

theorem sadd_sat_mem (hx : x ∈ X) (hy : y ∈ Y) : APIntOps.sadd_sat x y ∈ X.sadd_sat Y := by
  have hxb := sbetween_ends hx
  have hyb := sbetween_ends hy
  refine mem_hull_signed hx hy ?_ ?_
  · rw [toInt_sadd_sat hw, toInt_sadd_sat hw]
    exact clampSigned_mono (Int.add_le_add hxb.1 hyb.1)
  · rw [toInt_sadd_sat hw, toInt_sadd_sat hw]
    exact clampSigned_mono (Int.add_le_add hxb.2 hyb.2)

theorem ssub_sat_mem (hx : x ∈ X) (hy : y ∈ Y) : APIntOps.ssub_sat x y ∈ X.ssub_sat Y := by
  have hxb := sbetween_ends hx
  have hyb := sbetween_ends hy
  refine mem_hull_signed hx hy ?_ ?_
  · rw [toInt_ssub_sat hw, toInt_ssub_sat hw]
    exact clampSigned_mono (Int.sub_le_sub hxb.1 hyb.2)
  · rw [toInt_ssub_sat hw, toInt_ssub_sat hw]
    exact clampSigned_mono (Int.sub_le_sub hxb.2 hyb.1)

theorem umul_sat_mem (hx : x ∈ X) (hy : y ∈ Y) : APIntOps.umul_sat x y ∈ X.umul_sat Y := by
  have hxb := between_ends hx
  have hyb := between_ends hy
  refine mem_hull hx hy ?_ ?_
  · rw [toNat_umul_sat hw, toNat_umul_sat hw]
    exact clampUnsigned_mono (Nat.mul_le_mul hxb.1 hyb.1)
  · rw [toNat_umul_sat hw, toNat_umul_sat hw]
    exact clampUnsigned_mono (Nat.mul_le_mul hxb.2 hyb.2)

theorem smul_sat_mem (hx : x ∈ X) (hy : y ∈ Y) : APIntOps.smul_sat x y ∈ X.smul_sat Y := by
  have hcomputes : ∀ Min Max OtherMin OtherMax : BitVec w,
      ComputesAt APIntOps.smul_sat (clampSigned w) Min Max OtherMin OtherMax :=
    fun _ _ _ _ A _ B _ => toInt_smul_sat hw A B
  have hmono : ∀ m n, m ≤ n → clampSigned w m ≤ clampSigned w n := fun _ _ => clampSigned_mono
  refine mem_hull_signed hx hy ?_ ?_
  · rw [toInt_smul_sat hw]
    exact cornerMin_le (hcomputes _ _ _ _) hmono (sbetween_ends hx) (sbetween_ends hy)
  · rw [toInt_smul_sat hw]
    exact le_cornerMax (hcomputes _ _ _ _) hmono (sbetween_ends hx) (sbetween_ends hy)

end Signed

theorem ushl_sat_mem (hx : x ∈ X) (hy : y ∈ Y) (hlt : y.toNat < w) :
    APIntOps.ushl_sat x y ∈ X.ushl_sat Y := by
  have hxb := between_ends hx
  have hyb := between_ends hy
  refine mem_hull hx hy ?_ ?_
  · rw [toNat_ushl_sat hlt, toNat_ushl_sat (Nat.lt_of_le_of_lt hyb.1 hlt)]
    exact clampUnsigned_mono (Nat.mul_le_mul hxb.1 (Nat.pow_le_pow_right (by decide) hyb.1))
  · rcases Nat.lt_or_ge Y.getUnsignedMax.toNat w with hmax | hmax
    · rw [toNat_ushl_sat hlt, toNat_ushl_sat hmax]
      exact clampUnsigned_mono (Nat.mul_le_mul hxb.2 (Nat.pow_le_pow_right (by decide) hyb.2))
    · rw [ushl_sat_of_ge hmax, BitVec.toNat_allOnes]
      exact Nat.le_sub_one_of_lt (APIntOps.ushl_sat x y).isLt

theorem mul_two_pow_le {n : Int} {s t : Nat} (h : s ≤ t) :
    (0 ≤ n → n * 2 ^ s ≤ n * 2 ^ t) ∧ (n < 0 → n * 2 ^ t ≤ n * 2 ^ s) := by
  have hpow : (2 : Int) ^ s ≤ 2 ^ t := pow_le_pow_right₀ (by decide) h
  exact ⟨fun hn => Int.mul_le_mul_of_nonneg_left hpow hn,
    fun hn => Int.mul_le_mul_of_nonpos_left (Int.le_of_lt hn) hpow⟩

theorem sshl_sat_mem (hx : x ∈ X) (hy : y ∈ Y) (hlt : y.toNat < w) :
    APIntOps.sshl_sat x y ∈ X.sshl_sat Y := by
  have hw : 0 < w := Nat.zero_lt_of_lt hlt
  have hxb := sbetween_ends hx
  have hyb := between_ends hy
  have hpos := int_two_pow_pos y.toNat
  have hv := toInt_bounds hw (APIntOps.sshl_sat x y)
  have hmin : Y.getUnsignedMin.toNat < w := Nat.lt_of_le_of_lt hyb.1 hlt
  refine mem_hull_signed hx hy ?_ ?_
  · have hstep : X.getSignedMin.toInt * 2 ^ y.toNat ≤ x.toInt * 2 ^ y.toNat :=
      Int.mul_le_mul_of_nonneg_right hxb.1 (Int.le_of_lt hpos)
    rw [BitVec.msb_eq_toInt]
    by_cases hneg : X.getSignedMin.toInt < 0
    · rw [decide_eq_true hneg, Bool.not_true, if_neg Bool.false_ne_true]
      rcases Nat.lt_or_ge Y.getUnsignedMax.toNat w with hmax | hmax
      · rw [toInt_sshl_sat hlt, toInt_sshl_sat hmax]
        exact clampSigned_mono (Int.le_trans ((mul_two_pow_le hyb.2).2 hneg) hstep)
      · rw [sshl_sat_of_ge hmax, BitVec.msb_eq_toInt, decide_eq_true hneg, signedBound, if_pos rfl,
          toInt_intMin hw]
        exact hv.1
    · rw [decide_eq_false hneg, Bool.not_false, if_pos rfl, toInt_sshl_sat hlt,
        toInt_sshl_sat hmin]
      exact clampSigned_mono
        (Int.le_trans ((mul_two_pow_le hyb.1).1 (Int.not_lt.mp hneg)) hstep)
  · have hstep : x.toInt * 2 ^ y.toNat ≤ X.getSignedMax.toInt * 2 ^ y.toNat :=
      Int.mul_le_mul_of_nonneg_right hxb.2 (Int.le_of_lt hpos)
    rw [BitVec.msb_eq_toInt]
    by_cases hneg : X.getSignedMax.toInt < 0
    · rw [decide_eq_true hneg, if_pos rfl, toInt_sshl_sat hlt, toInt_sshl_sat hmin]
      exact clampSigned_mono (Int.le_trans hstep ((mul_two_pow_le hyb.1).2 hneg))
    · rw [decide_eq_false hneg, if_neg Bool.false_ne_true]
      rcases Nat.lt_or_ge Y.getUnsignedMax.toNat w with hmax | hmax
      · rw [toInt_sshl_sat hlt, toInt_sshl_sat hmax]
        exact clampSigned_mono
          (Int.le_trans hstep ((mul_two_pow_le hyb.2).1 (Int.not_lt.mp hneg)))
      · rw [sshl_sat_of_ge hmax, BitVec.msb_eq_toInt, decide_eq_false hneg, signedBound,
          if_neg Bool.false_ne_true, toInt_intMax hw]
        exact Int.le_sub_one_of_lt hv.2

end SmlnjLlvm.ConstantRange
