import SmlnjLlvm.IR.RangeBits
import SmlnjLlvm.IR.RangeShifts
import SmlnjLlvm.Library.LowBits

/-!
# Bit counts of ranges

The leading zeros of a range come from its ends. For trailing zeros and for ones
the range is cut at zero, and the elements of a part share the leading bits of its
ends. A count is a word of the width, which holds every count up to the width.
-/

namespace SmlnjLlvm.ConstantRange

open Words APIntOps Support

variable {w : Nat} {R X Y : ConstantRange w} {v x y L U : BitVec w}

def ctlz (R : ConstantRange w) (ZeroIsPoison : Bool) : Option (ConstantRange w) :=
  if R.isEmptySet then some getEmpty
  else if ZeroIsPoison && R.contains 0 then
    if R.Lower = 0 then
      if R.Upper - 1 = 0 then some getEmpty
      else ofBounds (BitVec.ofNat w (countl_zero (R.Upper - 1)))
        (BitVec.ofNat w (countl_zero (R.Lower + 1) + 1))
    else if R.Upper - 1 = 0 then ofBounds 0 (BitVec.ofNat w (countl_zero R.Lower + 1))
    else ofBounds 0 (BitVec.ofNat w w)
  else
    some (getNonEmpty (BitVec.ofNat w (countl_zero R.getUnsignedMax))
      (BitVec.ofNat w (countl_zero R.getUnsignedMin + 1)))

/-- The assertions that start the functions on the parts of a range. -/
def unwrappedPart (Lower Upper : BitVec w) : Option Unit := do
  let R ← ofBounds Lower Upper
  if R.isWrappedSet || Lower == Upper then none else some ()

def getUnsignedCountTrailingZerosRange (Lower Upper : BitVec w) : Option (ConstantRange w) := do
  unwrappedPart Lower Upper
  if Lower + 1 = Upper then some (ofAPInt (BitVec.ofNat w (countr_zero Lower)))
  else if Lower = 0 then ofBounds 0 (BitVec.ofNat w (w + 1))
  else
    let LCPLength := countl_zero (Lower ^^^ (Upper - 1))
    ofBounds 0 (BitVec.ofNat w (max (w - LCPLength - 1) (countr_zero Lower) + 1))

def cttz (R : ConstantRange w) (ZeroIsPoison : Bool) : Option (ConstantRange w) :=
  if R.isEmptySet then some getEmpty
  else if ZeroIsPoison && R.contains 0 then
    if R.Lower = 0 then
      if R.Upper = 1 then some getEmpty
      else getUnsignedCountTrailingZerosRange 1 R.Upper
    else if R.Upper = 1 then getUnsignedCountTrailingZerosRange R.Lower 0
    else do
      let CR1 ← getUnsignedCountTrailingZerosRange R.Lower 0
      let CR2 ← getUnsignedCountTrailingZerosRange 1 R.Upper
      CR1.unionWith CR2 .Smallest
  else if R.isFullSet then some (getNonEmpty 0 (BitVec.ofNat w (w + 1)))
  else if !R.isWrappedSet then getUnsignedCountTrailingZerosRange R.Lower R.Upper
  else do
    let CR1 ← getUnsignedCountTrailingZerosRange R.Lower 0
    let CR2 ← getUnsignedCountTrailingZerosRange 0 R.Upper
    CR1.unionWith CR2 .Smallest

def getHiBits (A : BitVec w) (numBits : Nat) : BitVec w := A >>> (w - numBits)

def getUnsignedPopCountRange (Lower Upper : BitVec w) : Option (ConstantRange w) := do
  unwrappedPart Lower Upper
  if Lower + 1 = Upper then some (ofAPInt (BitVec.ofNat w (popcount Lower)))
  else
    let Max := Upper - 1
    let LCPLength := countl_zero (Lower ^^^ Max)
    let LCPPopCount := popcount (getHiBits Lower LCPLength)
    let MinBits := LCPPopCount + if countr_zero Lower < w - LCPLength then 1 else 0
    let MaxBits :=
      LCPPopCount + (w - LCPLength) - if countr_one Max < w - LCPLength then 1 else 0
    ofBounds (BitVec.ofNat w MinBits) (BitVec.ofNat w (MaxBits + 1))

def ctpop (R : ConstantRange w) : Option (ConstantRange w) :=
  if R.isEmptySet then some getEmpty
  else if R.isFullSet then some (getNonEmpty 0 (BitVec.ofNat w (w + 1)))
  else if !R.isWrappedSet then getUnsignedPopCountRange R.Lower R.Upper
  else do
    let CR1 ← ofBounds (BitVec.ofNat w (countl_one R.Lower)) (BitVec.ofNat w (w + 1))
    let CR2 ← getUnsignedPopCountRange 0 R.Upper
    CR1.unionWith CR2 .Smallest

variable {a b n : Nat}

theorem toNat_count (h : n ≤ w) : (BitVec.ofNat w n).toNat = n := by
  have hlt : w < 2 ^ w := Nat.lt_two_pow_self
  rw [BitVec.toNat_ofNat, Nat.mod_eq_of_lt (by omega)]

theorem ofNat_succ_eq (w n : Nat) : BitVec.ofNat w (n + 1) = BitVec.ofNat w n + 1 := by
  rw [BitVec.ofNat_add]
  rfl

theorem count_mem_getNonEmpty (ha : a ≤ n) (hb : n ≤ b) (hbw : b ≤ w) :
    BitVec.ofNat w n ∈ getNonEmpty (BitVec.ofNat w a) (BitVec.ofNat w (b + 1)) := by
  rw [ofNat_succ_eq]
  apply mem_getNonEmpty
  · rw [toNat_count (by omega), toNat_count (by omega)]
    exact ha
  · rw [toNat_count (by omega), toNat_count (by omega)]
    exact hb

theorem ofBounds_counts (hab : a ≤ b) (hb : b + 1 < 2 ^ w) (hbw : b ≤ w) :
    ∃ Res, ofBounds (BitVec.ofNat w a) (BitVec.ofNat w (b + 1)) = some Res ∧
      ∀ n, a ≤ n → n ≤ b → BitVec.ofNat w n ∈ Res := by
  have hne : BitVec.ofNat w a ≠ BitVec.ofNat w b + 1 := by
    rw [← ofNat_succ_eq]
    intro h
    have hnat := congrArg BitVec.toNat h
    rw [toNat_count (by omega), BitVec.toNat_ofNat, Nat.mod_eq_of_lt hb] at hnat
    omega
  have hle : (BitVec.ofNat w a).toNat ≤ (BitVec.ofNat w b).toNat := by
    rw [toNat_count (by omega), toNat_count hbw]
    exact hab
  obtain ⟨Res, hRes, hmem⟩ := ofBounds_between hle hne
  refine ⟨Res, ofNat_succ_eq w b ▸ hRes, fun n hn hn' => (hmem _).mpr ?_⟩
  rw [Between, toNat_count (by omega), toNat_count (by omega), toNat_count hbw]
  exact ⟨hn, hn'⟩

theorem Lower_le_or_lt_Upper (hw : 0 < w) (hx : x ∈ R) :
    R.Lower.toNat ≤ x.toNat ∨ x.toNat < R.Upper.toNat := by
  rcases full_or_ne (isEmptySet_eq_false hw hx) with rfl | hne
  · have heq : (getFull : ConstantRange w).Lower = (getFull : ConstantRange w).Upper := rfl
    rw [heq]
    exact (Nat.lt_or_ge _ _).symm
  · rw [mem_iff hne] at hx
    unfold Arc.Mem at hx
    omega

theorem countl_zero_one (hw : 0 < w) : countl_zero (0 + 1 : BitVec w) = w - 1 := by
  have hone : (0 + 1 : BitVec w).toNat = 1 := by
    rw [zero_add]
    exact toNat_one hw
  have heq := countl_zero_eq (v := (0 + 1 : BitVec w)) (n := 0) (by omega) (by omega)
  omega

theorem zero_sub_one_toNat (hw : 0 < w) : (0 - 1 : BitVec w).toNat = 2 ^ w - 1 := by
  have hcases := toNat_sub_one_cases hw 0
  have hzero : (0 : BitVec w).toNat = 0 := rfl
  omega

theorem le_pred_of_Lower_zero (hw : 0 < w) (hLower : R.Lower = 0) (hx : x ∈ R) :
    R.Upper ≠ 0 ∧ x.toNat ≤ (R.Upper - 1).toNat := by
  rcases full_or_ne (isEmptySet_eq_false hw hx) with rfl | hne
  · exact absurd hLower (allOnes_ne_zero hw)
  · have hpred := toNat_sub_one_cases hw R.Upper
    have hzero : (0 : BitVec w).toNat = 0 := rfl
    have hdiff := toNat_ne hne
    rw [mem_iff hne] at hx
    unfold Arc.Mem at hx
    rw [hLower, hzero] at hx hdiff
    refine ⟨Support.toNat_ne_zero.mpr (by omega), ?_⟩
    omega

theorem ctlz_covers (hw : 0 < w) (R : ConstantRange w) (ZeroIsPoison : Bool) :
    ∃ Res, R.ctlz ZeroIsPoison = some Res ∧ ∀ x ∈ R, (ZeroIsPoison = true → x ≠ 0) →
      BitVec.ofNat w (countl_zero x) ∈ Res := by
  have hself : w < 2 ^ w := Nat.lt_two_pow_self
  unfold ctlz
  split_ifs with hempty hzero hLower hUpper hUpper
  · refine ⟨_, rfl, fun x hx _ => ?_⟩
    rw [isEmptySet_eq_false hw hx] at hempty
    cases hempty
  · refine ⟨_, rfl, fun x hx hne => absurd ?_ (hne (Bool.and_eq_true_iff.mp hzero).1)⟩
    have hle := (le_pred_of_Lower_zero hw hLower hx).2
    rw [hUpper] at hle
    exact BitVec.eq_of_toNat_eq (Nat.le_zero.mp hle)
  · have hlead := countl_zero_lt hUpper
    obtain ⟨Res, hRes, hmem⟩ := ofBounds_counts (a := countl_zero (R.Upper - 1)) (b := w - 1)
      (by omega) (by omega) (Nat.sub_le w 1)
    rw [hLower, countl_zero_one hw]
    refine ⟨Res, hRes, fun x hx hne => hmem _ ?_ ?_⟩
    · exact countl_zero_anti (le_pred_of_Lower_zero hw hLower hx).2
    · have hlt := countl_zero_lt (hne (Bool.and_eq_true_iff.mp hzero).1)
      omega
  · have hlt := countl_zero_lt hLower
    obtain ⟨Res, hRes, hmem⟩ := ofBounds_counts (a := 0) (b := countl_zero R.Lower)
      (Nat.zero_le _) (by omega) (Nat.le_of_lt hlt)
    refine ⟨Res, hRes, fun x hx hne => hmem _ (Nat.zero_le _) (countl_zero_anti ?_)⟩
    have hx_ne := Support.toNat_ne_zero.mp (hne (Bool.and_eq_true_iff.mp hzero).1)
    have hpred := toNat_sub_one_cases hw R.Upper
    have hzero' : (R.Upper - 1).toNat = 0 := by rw [hUpper]; rfl
    have hor := Lower_le_or_lt_Upper hw hx
    omega
  · obtain ⟨Res, hRes, hmem⟩ := ofBounds_counts (w := w) (a := 0) (b := w - 1)
      (Nat.zero_le _) (by omega) (Nat.sub_le w 1)
    rw [Nat.sub_add_cancel hw] at hRes
    refine ⟨Res, hRes, fun x hx hne => hmem _ (Nat.zero_le _) ?_⟩
    have hlt := countl_zero_lt (hne (Bool.and_eq_true_iff.mp hzero).1)
    omega
  · refine ⟨_, rfl, fun x hx _ => ?_⟩
    exact count_mem_getNonEmpty (countl_zero_anti (le_getUnsignedMax hx))
      (countl_zero_anti (getUnsignedMin_le hx)) (countl_zero_le _)

/-! ## Trailing zeros -/

/-- A part of a range that does not wrap. -/
def Part (L U : BitVec w) : Prop := L ≠ U ∧ L.toNat ≤ (U - 1).toNat

theorem Part.width_pos (h : Part L U) : 0 < w := ConstantRange.width_pos h.1

theorem unwrappedPart_eq (h : Part L U) : unwrappedPart L U = some () := by
  have hpred := toNat_sub_one_cases h.width_pos U
  have hle := h.2
  have hwrap : (⟨L, U, fun heq => absurd heq h.1⟩ : ConstantRange w).isWrappedSet = false := by
    rw [isWrappedSet, Bool.and_eq_false_iff, BitVec.ult, decide_eq_false_iff_not,
      decide_eq_false_iff_not, not_not]
    by_cases hU : U = 0
    · exact Or.inr hU
    · have hpos := Support.toNat_ne_zero.mp hU
      exact Or.inl (by dsimp only; omega)
  simp [unwrappedPart, ofBounds_of_ne h.1, hwrap, h.1]

theorem succ_lt_two_pow (h : 2 ≤ w) : w + 1 < 2 ^ w := by
  obtain ⟨k, rfl⟩ := Nat.exists_eq_add_of_le h
  have hself : k < 2 ^ k := Nat.lt_two_pow_self
  rw [Nat.pow_add]
  omega

theorem Part.one_lt_width (h : Part L U) (hmany : L + 1 ≠ U) : w + 1 < 2 ^ w := by
  have hw := h.width_pos
  refine succ_lt_two_pow (Nat.succ_le_of_lt (Nat.lt_of_not_ge fun hle => ?_))
  · obtain rfl : w = 1 := by omega
    have hsucc := toNat_add_one_cases hw L
    have hdiff : L.toNat ≠ U.toNat := fun heq => h.1 (BitVec.eq_of_toNat_eq heq)
    have hdiff' : (L + 1).toNat ≠ U.toNat := fun heq => hmany (BitVec.eq_of_toNat_eq heq)
    omega

theorem eq_of_one (hone : L + 1 = U) (hx : Between L (U - 1) x) : x = L := by
  have hpred : U - 1 = L := by rw [← hone, BitVec.add_sub_cancel]
  rw [hpred] at hx
  exact BitVec.eq_of_toNat_eq (Nat.le_antisymm hx.2 hx.1)

theorem not_dvd_of_gt {k : Nat} (hdiv : x.toNat / 2 ^ k = L.toNat / 2 ^ k)
    (hlt : L.toNat < x.toNat) : ¬2 ^ k ∣ x.toNat := by
  intro hdvd
  have hx := Nat.div_mul_cancel hdvd
  have hL := Nat.div_mul_le_self L.toNat (2 ^ k)
  rw [← hdiv] at hL
  omega

theorem getUnsignedCountTrailingZerosRange_covers (h : Part L U) :
    ∃ Res, getUnsignedCountTrailingZerosRange L U = some Res ∧
      ∀ x, Between L (U - 1) x → BitVec.ofNat w (countr_zero x) ∈ Res := by
  have hself : w < 2 ^ w := Nat.lt_two_pow_self
  simp only [getUnsignedCountTrailingZerosRange, unwrappedPart_eq h, Option.bind_eq_bind,
    Option.bind_some]
  split_ifs with hone hzero
  · refine ⟨_, rfl, fun x hx => ?_⟩
    rw [eq_of_one hone hx]
    exact (mem_ofAPInt_iff h.width_pos).mpr rfl
  · obtain ⟨Res, hRes, hmem⟩ := ofBounds_counts (w := w) (a := 0) (b := w) (Nat.zero_le _)
      (h.one_lt_width hone) (Nat.le_refl w)
    exact ⟨Res, hRes, fun x _ => hmem _ (Nat.zero_le _) (countr_zero_le x)⟩
  · have hL := countr_zero_lt hzero
    obtain ⟨Res, hRes, hmem⟩ := ofBounds_counts (w := w) (a := 0)
      (b := max (w - countl_zero (L ^^^ (U - 1)) - 1) (countr_zero L)) (Nat.zero_le _)
      (by omega) (by omega)
    refine ⟨Res, hRes, fun x hx => hmem _ (Nat.zero_le _) ?_⟩
    rcases Nat.lt_or_ge L.toNat x.toNat with hlt | hge
    · have hdiv := div_eq_of_between (Nat.le_refl _) hx.1 hx.2
      have hnot := not_dvd_of_gt hdiv hlt
      rw [LowBits.dvd_iff_bits, ← le_countr_zero_iff (Nat.sub_le _ _)] at hnot
      omega
    · obtain rfl : x = L := BitVec.eq_of_toNat_eq (Nat.le_antisymm hge hx.1)
      exact Nat.le_max_right _ _

theorem part_from (hw : 0 < w) (hL : L ≠ 0) : Part L 0 := by
  refine ⟨hL, ?_⟩
  rw [zero_sub_one_toNat hw]
  exact Nat.le_sub_one_of_lt L.isLt

theorem between_from (hw : 0 < w) (h : L.toNat ≤ x.toNat) : Between L (0 - 1) x := by
  refine ⟨h, ?_⟩
  rw [zero_sub_one_toNat hw]
  exact Nat.le_sub_one_of_lt x.isLt

theorem part_upTo (hlt : L.toNat < U.toNat) : Part L U := by
  have hne : L ≠ U := fun heq => Nat.ne_of_lt hlt (congrArg BitVec.toNat heq)
  have hpred := toNat_sub_one_cases (ConstantRange.width_pos hne) U
  exact ⟨hne, by omega⟩

theorem between_upTo (hlo : L.toNat ≤ x.toNat) (hhi : x.toNat < U.toNat) :
    Between L (U - 1) x := by
  have hne : L ≠ U := fun heq => by
    rw [heq] at hlo
    omega
  have hpred := toNat_sub_one_cases (ConstantRange.width_pos hne) U
  exact ⟨hlo, by omega⟩

theorem part_of_unwrapped (hempty : R.isEmptySet = false) (hfull : ¬R.isFullSet = true)
    (hwrap : R.isWrappedSet = false) :
    Part R.Lower R.Upper ∧ ∀ x ∈ R, Between R.Lower (R.Upper - 1) x := by
  rcases full_or_ne hempty with rfl | hne
  · exact absurd isFullSet_getFull hfull
  · have hpred := toNat_sub_one_cases (ConstantRange.width_pos hne) R.Upper
    have hdiff := toNat_ne hne
    have hcases : R.Upper.toNat = 0 ∨ R.Lower.toNat < R.Upper.toNat := by
      rw [isWrappedSet, Bool.and_eq_false_iff, BitVec.ult, decide_eq_false_iff_not,
        decide_eq_false_iff_not, not_not] at hwrap
      rcases hwrap with hlt | hzero
      · exact Or.inr (by omega)
      · exact Or.inl (by rw [hzero]; rfl)
    refine ⟨⟨hne, by omega⟩, fun x hx => ?_⟩
    rw [mem_iff hne] at hx
    unfold Arc.Mem at hx
    unfold Between
    omega

theorem ends_of_wrapped (hwrap : ¬(!R.isWrappedSet) = true) :
    R.Upper.toNat < R.Lower.toNat ∧ 0 < R.Upper.toNat := by
  rw [Bool.not_eq_true', Bool.not_eq_false, isWrappedSet, Bool.and_eq_true, BitVec.ult,
    decide_eq_true_iff, decide_eq_true_iff] at hwrap
  exact ⟨hwrap.1, Support.toNat_ne_zero.mp hwrap.2⟩

theorem union_of_parts {f : BitVec w → Nat} {A B : ConstantRange w} {S T : BitVec w → Prop}
    (hA : ∀ x, S x → BitVec.ofNat w (f x) ∈ A) (hB : ∀ x, T x → BitVec.ofNat w (f x) ∈ B) :
    ∃ Res, A.unionWith B .Smallest = some Res ∧ ∀ x, S x ∨ T x → BitVec.ofNat w (f x) ∈ Res := by
  have hAA : Covers (some A) A.elements := ⟨A, rfl, fun _ hv => hv⟩
  have hBB : Covers (some B) B.elements := ⟨B, rfl, fun _ hv => hv⟩
  obtain ⟨Res, hRes, hmem⟩ : Covers (A.unionWith B .Smallest) _ := hAA.union hBB
  exact ⟨Res, hRes, fun x hx => hmem _ (hx.imp (hA x) (hB x))⟩

theorem cttz_covers (hw : 0 < w) (R : ConstantRange w) (ZeroIsPoison : Bool) :
    ∃ Res, R.cttz ZeroIsPoison = some Res ∧ ∀ x ∈ R, (ZeroIsPoison = true → x ≠ 0) →
      BitVec.ofNat w (countr_zero x) ∈ Res := by
  have hone : (1 : BitVec w).toNat = 1 := toNat_one hw
  have hne_one : ∀ {V : BitVec w}, V ≠ 0 → V ≠ 1 → (1 : BitVec w).toNat < V.toNat := by
    intro V hV hV'
    have hpos := Support.toNat_ne_zero.mp hV
    have hdiff : V.toNat ≠ (1 : BitVec w).toNat := fun heq => hV' (BitVec.eq_of_toNat_eq heq)
    omega
  unfold cttz
  split_ifs with hempty hzero hLower hUpper hUpper hfull hwrap
  · refine ⟨_, rfl, fun x hx _ => ?_⟩
    rw [isEmptySet_eq_false hw hx] at hempty
    cases hempty
  · refine ⟨_, rfl, fun x hx hne => absurd ?_ (hne (Bool.and_eq_true_iff.mp hzero).1)⟩
    have hle := (le_pred_of_Lower_zero hw hLower hx).2
    rw [hUpper, sub_self] at hle
    exact BitVec.eq_of_toNat_eq (Nat.le_zero.mp hle)
  · have hfirst := first_mem (Bool.eq_false_iff.mpr hempty)
    have hmany := hne_one (le_pred_of_Lower_zero hw hLower hfirst).1 hUpper
    obtain ⟨Res, hRes, hmem⟩ := getUnsignedCountTrailingZerosRange_covers (part_upTo hmany)
    refine ⟨Res, hRes, fun x hx hne => hmem x ⟨?_, (le_pred_of_Lower_zero hw hLower hx).2⟩⟩
    have hpos := Support.toNat_ne_zero.mp (hne (Bool.and_eq_true_iff.mp hzero).1)
    omega
  · obtain ⟨Res, hRes, hmem⟩ := getUnsignedCountTrailingZerosRange_covers (part_from hw hLower)
    refine ⟨Res, hRes, fun x hx hne => hmem x (between_from hw ?_)⟩
    have hpos := Support.toNat_ne_zero.mp (hne (Bool.and_eq_true_iff.mp hzero).1)
    have hor := Lower_le_or_lt_Upper hw hx
    rw [hUpper] at hor
    omega
  · have hcontains : (0 : BitVec w) ∈ R := (Bool.and_eq_true_iff.mp hzero).2
    have hUpper_ne : R.Upper ≠ 0 := by
      rw [Support.toNat_ne_zero]
      have hpos := Support.toNat_ne_zero.mp hLower
      have hnat : (0 : BitVec w).toNat = 0 := rfl
      have hor := Lower_le_or_lt_Upper hw hcontains
      omega
    obtain ⟨A, hA, hAmem⟩ := getUnsignedCountTrailingZerosRange_covers (part_from hw hLower)
    obtain ⟨B, hB, hBmem⟩ :=
      getUnsignedCountTrailingZerosRange_covers (part_upTo (hne_one hUpper_ne hUpper))
    obtain ⟨Res, hRes, hmem⟩ := union_of_parts hAmem hBmem
    refine ⟨Res, by simp only [hA, hB, Option.bind_eq_bind, Option.bind_some, hRes],
      fun x hx hne => hmem x ?_⟩
    have hpos := Support.toNat_ne_zero.mp (hne (Bool.and_eq_true_iff.mp hzero).1)
    rcases Lower_le_or_lt_Upper hw hx with hle | hlt
    · exact Or.inl (between_from hw hle)
    · exact Or.inr (between_upTo (by omega) hlt)
  · refine ⟨_, rfl, fun x _ _ => ?_⟩
    exact count_mem_getNonEmpty (Nat.zero_le _) (countr_zero_le x) (Nat.le_refl w)
  · obtain ⟨hpart, hbetween⟩ := part_of_unwrapped (Bool.eq_false_iff.mpr hempty) hfull
      (by simpa using hwrap)
    obtain ⟨Res, hRes, hmem⟩ := getUnsignedCountTrailingZerosRange_covers hpart
    exact ⟨Res, hRes, fun x hx _ => hmem x (hbetween x hx)⟩
  · obtain ⟨hlt, hpos⟩ := ends_of_wrapped hwrap
    have hLower : R.Lower ≠ 0 := Support.toNat_ne_zero.mpr (Nat.lt_trans hpos hlt)
    obtain ⟨A, hA, hAmem⟩ := getUnsignedCountTrailingZerosRange_covers (part_from hw hLower)
    obtain ⟨B, hB, hBmem⟩ := getUnsignedCountTrailingZerosRange_covers (part_upTo (L := 0) hpos)
    obtain ⟨Res, hRes, hmem⟩ := union_of_parts hAmem hBmem
    refine ⟨Res, by simp only [hA, hB, Option.bind_eq_bind, Option.bind_some, hRes],
      fun x hx _ => hmem x ?_⟩
    rcases Lower_le_or_lt_Upper hw hx with hle | hlt
    · exact Or.inl (between_from hw hle)
    · exact Or.inr (between_upTo (Nat.zero_le _) hlt)

/-! ## Ones -/

theorem popcount_getHiBits {s : Nat}
    (hdiv : x.toNat / 2 ^ (w - s) = L.toNat / 2 ^ (w - s)) :
    popcount x = popcount (getHiBits L s) + lowOnes x (w - s) := by
  have hshift : x >>> (w - s) = L >>> (w - s) := by
    apply BitVec.eq_of_toNat_eq
    rw [BitVec.toNat_ushiftRight, toNat_shr,
      Nat.shiftRight_eq_div_pow, hdiv]
  rw [popcount_split x (Nat.sub_le w s), getHiBits, popcount_ushiftRight L (Nat.sub_le w s), hshift,
    Nat.add_comm]

theorem mod_le_mod_of_div_eq {k : Nat} (hdiv : x.toNat / 2 ^ k = y.toNat / 2 ^ k)
    (hle : x.toNat ≤ y.toNat) : x.toNat % 2 ^ k ≤ y.toNat % 2 ^ k := by
  have hx := Nat.div_add_mod x.toNat (2 ^ k)
  have hy := Nat.div_add_mod y.toNat (2 ^ k)
  rw [hdiv] at hx
  omega

theorem mod_eq_max_iff {k : Nat} (hk : k ≤ w) :
    x.toNat % 2 ^ k = 2 ^ k - 1 ↔ ∀ i < k, x.getLsbD i = true := by
  have hones : (BitVec.allOnes w).toNat % 2 ^ k = 2 ^ k - 1 := by
    have hpow : 2 ^ w = 2 ^ k * 2 ^ (w - k) := by rw [← Nat.pow_add, Nat.add_sub_cancel' hk]
    have hpos := Nat.two_pow_pos (w - k)
    have hpos' := Nat.two_pow_pos k
    have hsplit : 2 ^ w - 1 = 2 ^ k - 1 + 2 ^ k * (2 ^ (w - k) - 1) := by
      have hfactor : 2 ^ k * 2 ^ (w - k) = 2 ^ k * (2 ^ (w - k) - 1) + 2 ^ k := by
        rw [← Nat.mul_succ, Nat.succ_eq_add_one, Nat.sub_add_cancel hpos]
      omega
    rw [BitVec.toNat_allOnes, hsplit, Nat.add_mul_mod_self_left, Nat.mod_eq_of_lt (by omega)]
  rw [← hones, LowBits.mod_eq_iff_bits]
  refine forall₂_congr fun i hi => ?_
  rw [BitVec.getLsbD_allOnes, decide_eq_true (Nat.lt_of_lt_of_le hi hk)]

theorem lowOnes_bounds {k : Nat} (hk : k ≤ w) {lo hi : BitVec w}
    (hlo : x.toNat / 2 ^ k = lo.toNat / 2 ^ k) (hhi : x.toNat / 2 ^ k = hi.toNat / 2 ^ k)
    (hx : Between lo hi x) :
    (if countr_zero lo < k then 1 else 0) ≤ lowOnes x k ∧
      lowOnes x k + (if countr_one hi < k then 1 else 0) ≤ k := by
  have hle := lowOnes_le x k
  constructor
  · split_ifs with hzeros
    · have hmod := mod_le_mod_of_div_eq hlo.symm hx.1
      rw [← Nat.not_le, le_countr_zero_iff hk, ← LowBits.dvd_iff_bits, Nat.dvd_iff_mod_eq_zero]
        at hzeros
      rw [Nat.succ_le_iff, lowOnes_pos_iff, ← LowBits.dvd_iff_bits, Nat.dvd_iff_mod_eq_zero]
      omega
    · exact Nat.zero_le _
  · split_ifs with hones
    · have hmod := mod_le_mod_of_div_eq hhi hx.2
      rw [← Nat.not_le, le_countr_one_iff hk, ← mod_eq_max_iff hk] at hones
      rw [Nat.succ_le_iff, lowOnes_lt_iff, ← mod_eq_max_iff hk]
      omega
    · exact hle

theorem getUnsignedPopCountRange_covers (h : Part L U) :
    ∃ Res, getUnsignedPopCountRange L U = some Res ∧
      ∀ x, Between L (U - 1) x → BitVec.ofNat w (popcount x) ∈ Res := by
  simp only [getUnsignedPopCountRange, unwrappedPart_eq h, Option.bind_eq_bind, Option.bind_some]
  by_cases hone : L + 1 = U
  · refine ⟨_, if_pos hone, fun x hx => ?_⟩
    rw [eq_of_one hone hx]
    exact (mem_ofAPInt_iff h.width_pos).mpr rfl
  · rw [if_neg hone]
    have hcount := countl_zero_le (L ^^^ (U - 1))
    have hsub := Nat.sub_le w (countl_zero (L ^^^ (U - 1)))
    have hbounds : ∀ x, Between L (U - 1) x → _ := fun x hx =>
      lowOnes_bounds hsub (div_eq_of_between (Nat.le_refl _) hx.1 hx.2)
        ((div_eq_of_between (Nat.le_refl _) hx.1 hx.2).trans
          (div_eq_of_le_countl_zero_xor (Nat.le_refl _))) hx
    have hpop : ∀ x, Between L (U - 1) x → _ := fun x hx =>
      popcount_getHiBits (div_eq_of_between (Nat.le_refl _) hx.1 hx.2)
    have hfirst : Between L (U - 1) L := ⟨Nat.le_refl _, h.2⟩
    have hL := hbounds L hfirst
    have hhigh : popcount (getHiBits L (countl_zero (L ^^^ (U - 1)))) ≤
        countl_zero (L ^^^ (U - 1)) := by
      rw [getHiBits, popcount_ushiftRight L hsub]
      have hle := lowOnes_le (L >>> (w - countl_zero (L ^^^ (U - 1))))
        (w - (w - countl_zero (L ^^^ (U - 1))))
      omega
    have hwidth := h.one_lt_width hone
    generalize countl_zero (L ^^^ (U - 1)) = LCPLength at *
    generalize popcount (getHiBits L LCPLength) = LCPPopCount at *
    obtain ⟨Res, hRes, hmem⟩ := ofBounds_counts (w := w)
      (a := LCPPopCount + if countr_zero L < w - LCPLength then 1 else 0)
      (b := LCPPopCount + (w - LCPLength) - if countr_one (U - 1) < w - LCPLength then 1 else 0)
      (by omega) (by omega) (by omega)
    refine ⟨Res, hRes, fun x hx => ?_⟩
    have hx' := hbounds x hx
    have hxpop := hpop x hx
    exact hmem _ (by omega) (by omega)

theorem ctpop_covers (hw : 0 < w) (R : ConstantRange w) :
    ∃ Res, R.ctpop = some Res ∧ ∀ x ∈ R, BitVec.ofNat w (popcount x) ∈ Res := by
  unfold ctpop
  split_ifs with hempty hfull hwrap
  · refine ⟨_, rfl, fun x hx => ?_⟩
    rw [isEmptySet_eq_false hw hx] at hempty
    cases hempty
  · refine ⟨_, rfl, fun x _ => ?_⟩
    exact count_mem_getNonEmpty (Nat.zero_le _) (popcount_le x) (Nat.le_refl w)
  · obtain ⟨hpart, hbetween⟩ := part_of_unwrapped (Bool.eq_false_iff.mpr hempty) hfull
      (by simpa using hwrap)
    obtain ⟨Res, hRes, hmem⟩ := getUnsignedPopCountRange_covers hpart
    exact ⟨Res, hRes, fun x hx => hmem x (hbetween x hx)⟩
  · obtain ⟨hlt, hpos⟩ := ends_of_wrapped hwrap
    obtain ⟨B, hB, hBmem⟩ := getUnsignedPopCountRange_covers (part_upTo (L := 0) hpos)
    have hwidth : w + 1 < 2 ^ w := by
      refine succ_lt_two_pow (Nat.succ_le_of_lt (Nat.lt_of_not_ge fun hle => ?_))
      obtain rfl : w = 1 := by omega
      omega
    have hones : countl_one R.Lower ≤ w := countl_zero_le _
    obtain ⟨A, hA, hAmem⟩ := ofBounds_counts (a := countl_one R.Lower) (b := w) hones hwidth
      (Nat.le_refl w)
    have hAx : ∀ x : BitVec w, R.Lower.toNat ≤ x.toNat → BitVec.ofNat w (popcount x) ∈ A := by
      intro x hx
      refine hAmem _ (Nat.le_trans ?_ (countl_one_le_popcount x)) (popcount_le x)
      refine countl_zero_anti ?_
      rw [BitVec.toNat_not, BitVec.toNat_not]
      omega
    obtain ⟨Res, hRes, hmem⟩ := union_of_parts hAx hBmem
    refine ⟨Res, by simp only [hA, hB, Option.bind_eq_bind, Option.bind_some, hRes],
      fun x hx => hmem x ?_⟩
    rcases Lower_le_or_lt_Upper hw hx with hle | hlt
    · exact Or.inl hle
    · exact Or.inr (between_upTo (Nat.zero_le _) hlt)

/-! ## Soundness -/

/-- The counts of the elements of a range that have a property. -/
def counts (X : ConstantRange w) (P : BitVec w → Prop) (f : BitVec w → Nat) : Set (BitVec w) :=
  {v | ∃ x ∈ X, P x ∧ v = BitVec.ofNat w (f x)}

theorem shifted_covers (hw : 0 < w) (X Y : ConstantRange w) :
    Covers (some (X.shl Y)) (results X Y (fun _ y => y.toNat < w) fun x y => x <<< y.toNat) ∧
    Covers (some (X.lshr Y)) (results X Y (fun _ y => y.toNat < w) fun x y => x >>> y.toNat) ∧
    Covers (some (X.ashr Y))
      (results X Y (fun _ y => y.toNat < w) fun x y => x.sshiftRight y.toNat) := by
  refine ⟨⟨_, rfl, ?_⟩, ⟨_, rfl, ?_⟩, ⟨_, rfl, ?_⟩⟩
  · rintro v ⟨x, hx, y, hy, hlt, rfl⟩
    have heq : APIntOps.shl x y = x <<< y.toNat := shl_eq (Nat.le_of_lt hlt)
    dsimp only
    rw [← heq]
    exact shl_mem hx hy hlt
  · rintro v ⟨x, hx, y, hy, hlt, rfl⟩
    have heq : APIntOps.lshr x y = x >>> y.toNat := by
      rw [APIntOps.lshr, getLimitedValue_eq, Nat.min_eq_left (Nat.le_of_lt hlt)]
    dsimp only
    rw [← heq]
    exact lshr_mem hw hx hy
  · rintro v ⟨x, hx, y, hy, hlt, rfl⟩
    have heq : APIntOps.ashr x y = x.sshiftRight y.toNat := by
      rw [APIntOps.ashr, getLimitedValue_eq, Nat.min_eq_left (Nat.le_of_lt hlt)]
    dsimp only
    rw [← heq]
    exact ashr_mem hw hx hy

theorem saturating_covers (hw : 0 < w) (X Y : ConstantRange w) :
    Covers (some (X.uadd_sat Y)) (results X Y (fun _ _ => True) APIntOps.uadd_sat) ∧
    Covers (some (X.sadd_sat Y)) (results X Y (fun _ _ => True) APIntOps.sadd_sat) ∧
    Covers (some (X.usub_sat Y)) (results X Y (fun _ _ => True) APIntOps.usub_sat) ∧
    Covers (some (X.ssub_sat Y)) (results X Y (fun _ _ => True) APIntOps.ssub_sat) ∧
    Covers (some (X.umul_sat Y)) (results X Y (fun _ _ => True) APIntOps.umul_sat) ∧
    Covers (some (X.smul_sat Y)) (results X Y (fun _ _ => True) APIntOps.smul_sat) ∧
    Covers (some (X.ushl_sat Y)) (results X Y (fun _ y => y.toNat < w) APIntOps.ushl_sat) ∧
    Covers (some (X.sshl_sat Y)) (results X Y (fun _ y => y.toNat < w) APIntOps.sshl_sat) := by
  have hmem : ∀ {R : ConstantRange w} {P : BitVec w → BitVec w → Prop}
      {f : BitVec w → BitVec w → BitVec w}, (∀ x ∈ X, ∀ y ∈ Y, P x y → f x y ∈ R) →
        Covers (some R) (results X Y P f) := by
    intro R P f h
    refine ⟨R, rfl, ?_⟩
    rintro v ⟨x, hx, y, hy, hP, rfl⟩
    exact h x hx y hy hP
  exact ⟨hmem fun x hx y hy _ => uadd_sat_mem hx hy, hmem fun x hx y hy _ => sadd_sat_mem hw hx hy,
    hmem fun x hx y hy _ => usub_sat_mem hx hy, hmem fun x hx y hy _ => ssub_sat_mem hw hx hy,
    hmem fun x hx y hy _ => umul_sat_mem hw hx hy, hmem fun x hx y hy _ => smul_sat_mem hw hx hy,
    hmem fun x hx y hy hlt => ushl_sat_mem hx hy hlt,
    hmem fun x hx y hy hlt => sshl_sat_mem hx hy hlt⟩

theorem counts_covers (hw : 0 < w) (X : ConstantRange w) (ZeroIsPoison : Bool) :
    Covers (X.ctlz ZeroIsPoison) (counts X (fun x => ZeroIsPoison = true → x ≠ 0) countl_zero) ∧
    Covers (X.cttz ZeroIsPoison) (counts X (fun x => ZeroIsPoison = true → x ≠ 0) countr_zero) ∧
    Covers X.ctpop (counts X (fun _ => True) popcount) := by
  obtain ⟨A, hA, hAmem⟩ := ctlz_covers hw X ZeroIsPoison
  obtain ⟨B, hB, hBmem⟩ := cttz_covers hw X ZeroIsPoison
  obtain ⟨C, hC, hCmem⟩ := ctpop_covers hw X
  refine ⟨⟨A, hA, ?_⟩, ⟨B, hB, ?_⟩, ⟨C, hC, ?_⟩⟩
  · rintro v ⟨x, hx, hne, rfl⟩
    exact hAmem x hx hne
  · rintro v ⟨x, hx, hne, rfl⟩
    exact hBmem x hx hne
  · rintro v ⟨x, hx, -, rfl⟩
    exact hCmem x hx

end SmlnjLlvm.ConstantRange
