import Mathlib.Algebra.Order.Field.Rat
import Mathlib.Tactic.FieldSimp
import Mathlib.Tactic.Positivity
import SmlnjLlvm.Library.RoundedShares
import SmlnjLlvm.Library.Words

/-!
# Branch probabilities

Fractions with the denominator `2 ^ 31`, and the product of a 64-bit number
with one of them.
-/

namespace SmlnjLlvm.Support

open Words RoundedShares

structure BranchProbability where
  N : BitVec 32

variable {P RHS : BranchProbability}

namespace BranchProbability

def D : BitVec 32 := BitVec.ofNat 32 (2 ^ 31)

def UnknownN : BitVec 32 := BitVec.allOnes 32

def isUnknown (P : BranchProbability) : Bool := P.N == UnknownN

/-- `operator+`, which saturates. An unknown probability is an assertion that fails. -/
def add (P RHS : BranchProbability) : Option BranchProbability := do
  guard (P.isUnknown = false ∧ RHS.isUnknown = false)
  return ⟨if D.setWidth 64 < P.N.setWidth 64 + RHS.N.setWidth 64 then D else P.N + RHS.N⟩

/-- `operator/` with a number. -/
def div (P : BranchProbability) (RHS : BitVec 32) : Option BranchProbability := do
  guard (P.isUnknown = false)
  guard (0 < RHS)
  return ⟨P.N / RHS⟩

/-- `operator<` -/
def lt (P RHS : BranchProbability) : Option Bool := do
  guard (P.isUnknown = false ∧ RHS.isUnknown = false)
  return decide (P.N < RHS.N)

/-- `operator>` -/
def gt (P RHS : BranchProbability) : Option Bool := do
  guard (P.isUnknown = false ∧ RHS.isUnknown = false)
  RHS.lt P

/-- The constructor from a numerator and a denominator. -/
def ofFraction (Numerator Denominator : BitVec 32) : Option BranchProbability := do
  guard (0 < Denominator)
  guard (Numerator ≤ Denominator)
  if Denominator = D then some ⟨Numerator⟩
  else
    let Prob64 := (Numerator.setWidth 64 * D.setWidth 64 + (Denominator / 2).setWidth 64) /
      Denominator.setWidth 64
    some ⟨Prob64.setWidth 32⟩

/-- `Num * N / D` in 32-bit digits, or the largest word where it does not fit. -/
def scaleDigits (Num : BitVec 64) (N D : BitVec 32) : BitVec 64 :=
  let UINT32_MAX : BitVec 64 := BitVec.ofNat 64 (2 ^ 32 - 1)
  let ProductHigh := Num >>> 32 * N.setWidth 64
  let ProductLow := (Num &&& UINT32_MAX) * N.setWidth 64
  let Upper32 := (ProductHigh >>> 32).setWidth 32
  let Lower32 := (ProductLow &&& UINT32_MAX).setWidth 32
  let Mid32Partial := (ProductHigh &&& UINT32_MAX).setWidth 32
  let Mid32 := (Mid32Partial.setWidth 64 + ProductLow >>> 32).setWidth 32
  let Upper32 : BitVec 32 := Upper32 + if Mid32 < Mid32Partial then 1 else 0
  let Rem := Upper32.setWidth 64 <<< 32 ||| Mid32.setWidth 64
  let UpperQ := Rem / D.setWidth 64
  if UINT32_MAX < UpperQ then BitVec.allOnes 64
  else
    let Rem := (Rem % D.setWidth 64) <<< 32 ||| Lower32.setWidth 64
    let LowerQ := Rem / D.setWidth 64
    let Q := UpperQ <<< 32 + LowerQ
    if Q < LowerQ then BitVec.allOnes 64 else Q

/-- `scale` with the constant denominator. -/
def scale (P : BranchProbability) (Num : BitVec 64) : BitVec 64 :=
  if Num = 0 ∨ D = P.N then Num else scaleDigits Num P.N D

/-- `scale` of the inverse, with the assertion that the divisor is not zero. -/
def scaleByInverse (P : BranchProbability) (Num : BitVec 64) : Option (BitVec 64) := do
  guard (P.N ≠ 0)
  return if Num = 0 ∨ P.N = D then Num else scaleDigits Num D P.N

/-- The loop that halves the denominator until it fits in a digit, and counts the halvings. -/
def scaleDown (Denominator : BitVec 64) (Scale : Nat) : BitVec 64 × Nat :=
  if BitVec.ofNat 64 (2 ^ 32 - 1) < Denominator then scaleDown (Denominator >>> 1) (Scale + 1)
  else (Denominator, Scale)
termination_by Denominator.toNat
decreasing_by
  rename_i h
  have hlt : 2 ^ 32 - 1 < Denominator.toNat := h
  rw [toNat_shr]
  omega

def getBranchProbability (Numerator Denominator : BitVec 64) : Option BranchProbability := do
  guard (Numerator ≤ Denominator)
  let (Denominator, Scale) := scaleDown Denominator 0
  ofFraction ((Numerator >>> Scale).setWidth 32) (Denominator.setWidth 32)

theorem toNat_D : D.toNat = 2 ^ 31 := rfl

theorem toNat_setWidth_wide (x : BitVec 32) : (x.setWidth 64).toNat = x.toNat := by
  rw [BitVec.toNat_setWidth, Nat.mod_eq_of_lt]
  exact Nat.lt_trans x.isLt (by decide)

theorem ofFraction_rounded {Numerator Denominator : BitVec 32} (hpos : 0 < Denominator.toNat)
    (hle : Numerator.toNat ≤ Denominator.toNat) :
    ∃ P, ofFraction Numerator Denominator = some P ∧
      P.N.toNat = share (2 ^ 31) Denominator.toNat Numerator.toNat := by
  have hguard : 0 < Denominator := BitVec.lt_def.mpr hpos
  have hguard' : Numerator ≤ Denominator := BitVec.le_def.mpr hle
  unfold ofFraction
  simp only [guard, hguard, hguard', if_true, Option.pure_def, Option.bind_eq_bind,
    Option.bind_some]
  by_cases hD : Denominator = D
  · subst hD
    refine ⟨⟨Numerator⟩, if_pos rfl, ?_⟩
    show Numerator.toNat = (Numerator.toNat * 2 ^ 31 + 2 ^ 31 / 2) / 2 ^ 31
    omega
  · have hhalf : (Denominator / 2).toNat = Denominator.toNat / 2 := BitVec.toNat_udiv
    have hmul : (Numerator.setWidth 64 * D.setWidth 64).toNat = Numerator.toNat * 2 ^ 31 := by
      rw [BitVec.toNat_mul, toNat_setWidth_wide, toNat_setWidth_wide, toNat_D]
      omega
    have hsum : (Numerator.setWidth 64 * D.setWidth 64 + (Denominator / 2).setWidth 64).toNat =
        Numerator.toNat * 2 ^ 31 + Denominator.toNat / 2 := by
      rw [toNat_add_of_lt, hmul, toNat_setWidth_wide, hhalf]
      rw [hmul, toNat_setWidth_wide, hhalf]
      omega
    have hbound : share (2 ^ 31) Denominator.toNat Numerator.toNat ≤ 2 ^ 31 := share_le hpos hle
    refine ⟨_, if_neg hD, ?_⟩
    rw [BitVec.toNat_setWidth, BitVec.toNat_udiv, hsum, toNat_setWidth_wide]
    exact Nat.mod_eq_of_lt (Nat.lt_of_le_of_lt hbound (by decide))

theorem toNat_ofFraction {Numerator Denominator : BitVec 32} (hpos : 0 < Denominator.toNat)
    (hle : Numerator.toNat ≤ Denominator.toNat) :
    ∃ P, ofFraction Numerator Denominator = some P ∧ P.N.toNat ≤ 2 ^ 31 ∧
      (Numerator = Denominator → P.N = D) := by
  obtain ⟨P, hP, hN⟩ := ofFraction_rounded hpos hle
  refine ⟨P, hP, hN.trans_le (share_le hpos hle), fun heq => ?_⟩
  apply BitVec.eq_of_toNat_eq
  rw [hN, share, heq, Nat.mul_add_div hpos, Nat.div_eq_of_lt (Nat.div_lt_self hpos (by decide)), toNat_D]
  rfl

theorem isUnknown_of_lt (h : P.N.toNat < 2 ^ 32 - 1) : P.isUnknown = false := by
  rw [isUnknown, beq_eq_false_iff_ne]
  intro heq
  have hlarge : UnknownN.toNat = 2 ^ 32 - 1 := rfl
  rw [← heq] at hlarge
  omega

theorem add_saturates (hP : P.isUnknown = false) (hRHS : RHS.isUnknown = false) :
    ∃ Q, P.add RHS = some Q ∧ Q.isUnknown = false ∧
      Q.N.toNat = min (2 ^ 31) (P.N.toNat + RHS.N.toNat) := by
  have hsum : (P.N.setWidth 64 + RHS.N.setWidth 64).toNat = P.N.toNat + RHS.N.toNat := by
    rw [toNat_add_of_lt, toNat_setWidth_wide, toNat_setWidth_wide]
    rw [toNat_setWidth_wide, toNat_setWidth_wide]
    omega
  have hD : (D.setWidth 64).toNat = 2 ^ 31 := rfl
  obtain ⟨Q, hQ, hvalue⟩ : ∃ Q, P.add RHS = some Q ∧
      Q.N.toNat = min (2 ^ 31) (P.N.toNat + RHS.N.toNat) := by
    refine ⟨_, by rw [add, guard, if_pos ⟨hP, hRHS⟩]; rfl, ?_⟩
    split
    · next hlt =>
      rw [BitVec.lt_def, hsum] at hlt
      rw [toNat_D]
      omega
    · next hge =>
      rw [BitVec.lt_def, hsum] at hge
      rw [toNat_add_of_lt (by omega)]
      omega
  exact ⟨Q, hQ, isUnknown_of_lt (by omega), hvalue⟩

theorem known_of_add {Q : BranchProbability} (h : P.add RHS = some Q) :
    P.isUnknown = false ∧ RHS.isUnknown = false := by
  unfold add at h
  by_cases hknown : P.isUnknown = false ∧ RHS.isUnknown = false
  · exact hknown
  · rw [guard, if_neg hknown] at h
    cases h

theorem div_two (hP : P.isUnknown = false) :
    ∃ Q, P.div 2 = some Q ∧ Q.isUnknown = false ∧ Q.N.toNat = P.N.toNat / 2 := by
  have hvalue : (P.N / 2).toNat = P.N.toNat / 2 := BitVec.toNat_udiv
  refine ⟨⟨P.N / 2⟩, by rw [div, guard, if_pos hP]; rfl, isUnknown_of_lt ?_, hvalue⟩
  dsimp only
  omega

theorem lt_eq (hP : P.isUnknown = false) (hRHS : RHS.isUnknown = false) :
    P.lt RHS = some (decide (P.N < RHS.N)) := by
  rw [lt, guard, if_pos ⟨hP, hRHS⟩]
  rfl

theorem gt_eq (hP : P.isUnknown = false) (hRHS : RHS.isUnknown = false) :
    P.gt RHS = some (decide (RHS.N < P.N)) := by
  rw [gt, guard, if_pos ⟨hP, hRHS⟩, lt_eq hRHS hP]
  rfl

/-! ## Products -/

theorem toNat_and_max (x : BitVec 64) :
    (x &&& BitVec.ofNat 64 (2 ^ 32 - 1)).toNat = x.toNat % 2 ^ 32 := by
  have hmask : (BitVec.ofNat 64 (2 ^ 32 - 1)).toNat = 2 ^ 32 - 1 := rfl
  rw [BitVec.toNat_and, hmask, Nat.and_two_pow_sub_one_eq_mod]

theorem toNat_joined {high low : BitVec 64} (hhigh : high.toNat < 2 ^ 32)
    (hlow : low.toNat < 2 ^ 32) :
    (high <<< 32 ||| low).toNat = high.toNat * 2 ^ 32 + low.toNat := by
  have hshift : (high <<< 32).toNat = 2 ^ 32 * high.toNat := by
    rw [toNat_shl]
    omega
  rw [BitVec.toNat_or, hshift, ← Nat.two_pow_add_eq_or_of_lt hlow, Nat.mul_comm]

theorem toNat_mul_digit {x : BitVec 64} (N : BitVec 32) (hx : x.toNat < 2 ^ 32) :
    (x * N.setWidth 64).toNat = x.toNat * N.toNat ∧
      x.toNat * N.toNat ≤ (2 ^ 32 - 1) * (2 ^ 32 - 1) := by
  have hN := N.isLt
  have hle : x.toNat * N.toNat ≤ (2 ^ 32 - 1) * (2 ^ 32 - 1) :=
    Nat.mul_le_mul (Nat.le_pred_of_lt hx) (Nat.le_pred_of_lt hN)
  refine ⟨?_, hle⟩
  rw [BitVec.toNat_mul, toNat_setWidth_wide, Nat.mod_eq_of_lt]
  exact Nat.lt_of_le_of_lt hle (by decide)

theorem toNat_leadingDigits (ProductHigh ProductLow : BitVec 64)
    (hhigh : ProductHigh.toNat ≤ (2 ^ 32 - 1) * (2 ^ 32 - 1)) :
    let Mid32Partial := (ProductHigh &&& BitVec.ofNat 64 (2 ^ 32 - 1)).setWidth 32
    let Mid32 := (Mid32Partial.setWidth 64 + ProductLow >>> 32).setWidth 32
    let Upper32 : BitVec 32 :=
      (ProductHigh >>> 32).setWidth 32 + if Mid32 < Mid32Partial then 1 else 0
    (Upper32.setWidth 64 <<< 32 ||| Mid32.setWidth 64).toNat =
      ProductHigh.toNat + ProductLow.toNat / 2 ^ 32 := by
  intro Mid32Partial Mid32 Upper32
  have hpartial : Mid32Partial.toNat = ProductHigh.toNat % 2 ^ 32 := by
    rw [BitVec.toNat_setWidth, toNat_and_max, Nat.mod_mod]
  have hmid : Mid32.toNat = (ProductHigh.toNat % 2 ^ 32 + ProductLow.toNat / 2 ^ 32) % 2 ^ 32 := by
    rw [BitVec.toNat_setWidth, BitVec.toNat_add, toNat_setWidth_wide, hpartial,
      toNat_shr, Nat.mod_mod_of_dvd _ (by decide)]
  have hupper : Upper32.toNat = (ProductHigh.toNat / 2 ^ 32 +
      if Mid32.toNat < Mid32Partial.toNat then 1 else 0) % 2 ^ 32 := by
    rw [BitVec.toNat_add, BitVec.toNat_setWidth, toNat_shr, Nat.mod_add_mod, apply_ite BitVec.toNat]
    rfl
  have hU := Upper32.isLt
  have hM := Mid32.isLt
  rw [toNat_joined (by rw [toNat_setWidth_wide]; exact hU) (by rw [toNat_setWidth_wide]; exact hM),
    toNat_setWidth_wide, toNat_setWidth_wide, hupper, hpartial, hmid]
  split
  · omega
  · omega

theorem toNat_quotients {Rem Lower : BitVec 64} {D : BitVec 32} (hD : 0 < D.toNat)
    (hLower : Lower.toNat < 2 ^ 32) :
    (if BitVec.ofNat 64 (2 ^ 32 - 1) < Rem / D.setWidth 64 then BitVec.allOnes 64
      else
        if (Rem / D.setWidth 64) <<< 32 +
            ((Rem % D.setWidth 64) <<< 32 ||| Lower) / D.setWidth 64 <
              ((Rem % D.setWidth 64) <<< 32 ||| Lower) / D.setWidth 64 then BitVec.allOnes 64
        else (Rem / D.setWidth 64) <<< 32 +
          ((Rem % D.setWidth 64) <<< 32 ||| Lower) / D.setWidth 64).toNat =
      min ((Rem.toNat * 2 ^ 32 + Lower.toNat) / D.toNat) (2 ^ 64 - 1) := by
  have hrest := Nat.mod_lt Rem.toNat hD
  have hupper : (Rem / D.setWidth 64).toNat = Rem.toNat / D.toNat := by
    rw [BitVec.toNat_udiv, toNat_setWidth_wide]
  have hrem : (Rem % D.setWidth 64).toNat = Rem.toNat % D.toNat := by
    rw [BitVec.toNat_umod, toNat_setWidth_wide]
  have hlower : (((Rem % D.setWidth 64) <<< 32 ||| Lower) / D.setWidth 64).toNat =
      (Rem.toNat % D.toNat * 2 ^ 32 + Lower.toNat) / D.toNat := by
    rw [BitVec.toNat_udiv, toNat_setWidth_wide, toNat_joined (by omega) hLower, hrem]
  have hdigit : (Rem.toNat % D.toNat * 2 ^ 32 + Lower.toNat) / D.toNat < 2 ^ 32 := by
    rw [Nat.div_lt_iff_lt_mul hD]
    omega
  have hsplit : (Rem.toNat * 2 ^ 32 + Lower.toNat) / D.toNat =
      Rem.toNat / D.toNat * 2 ^ 32 + (Rem.toNat % D.toNat * 2 ^ 32 + Lower.toNat) / D.toNat := by
    rw [← Nat.mul_add_div hD, ← Nat.add_assoc, ← Nat.mul_assoc, ← Nat.add_mul, Nat.div_add_mod]
  have hmax : (BitVec.ofNat 64 (2 ^ 32 - 1)).toNat = 2 ^ 32 - 1 := rfl
  rw [hsplit]
  by_cases hlarge : BitVec.ofNat 64 (2 ^ 32 - 1) < Rem / D.setWidth 64
  · rw [if_pos hlarge, BitVec.toNat_allOnes, Nat.min_eq_right]
    rw [BitVec.lt_def, hmax, hupper] at hlarge
    omega
  · rw [if_neg hlarge]
    rw [BitVec.lt_def, hmax, hupper] at hlarge
    have hshift : ((Rem / D.setWidth 64) <<< 32).toNat = Rem.toNat / D.toNat * 2 ^ 32 := by
      rw [toNat_shl, hupper, Nat.mod_eq_of_lt (by omega)]
    have hsum := toNat_add_of_lt (a := (Rem / D.setWidth 64) <<< 32)
      (b := ((Rem % D.setWidth 64) <<< 32 ||| Lower) / D.setWidth 64)
      (by rw [hshift, hlower]; omega)
    rw [hshift, hlower] at hsum
    rw [if_neg, hsum, Nat.min_eq_left]
    · omega
    · rw [BitVec.lt_def, hsum, hlower]
      omega

theorem toNat_scaleDigits {Num : BitVec 64} {N D : BitVec 32} (hD : 0 < D.toNat) :
    (scaleDigits Num N D).toNat = min (Num.toNat * N.toNat / D.toNat) (2 ^ 64 - 1) := by
  have hU : (Num >>> 32).toNat = Num.toNat / 2 ^ 32 := by
    rw [toNat_shr]
  obtain ⟨hhigh, hhighle⟩ := toNat_mul_digit (x := Num >>> 32) N (by omega)
  obtain ⟨hlow, _⟩ := toNat_mul_digit (x := Num &&& BitVec.ofNat 64 (2 ^ 32 - 1)) N
    (by rw [toNat_and_max]; omega)
  rw [hU] at hhigh hhighle
  rw [toNat_and_max] at hlow
  have hleading := toNat_leadingDigits (Num >>> 32 * N.setWidth 64)
    ((Num &&& BitVec.ofNat 64 (2 ^ 32 - 1)) * N.setWidth 64) (by omega)
  have hLower : ((((Num &&& BitVec.ofNat 64 (2 ^ 32 - 1)) * N.setWidth 64 &&&
      BitVec.ofNat 64 (2 ^ 32 - 1)).setWidth 32).setWidth 64).toNat =
        Num.toNat % 2 ^ 32 * N.toNat % 2 ^ 32 := by
    rw [toNat_setWidth_wide, BitVec.toNat_setWidth, toNat_and_max, hlow, Nat.mod_mod]
  -- The product in two parts, the lower one a digit.
  have hproduct : Num.toNat * N.toNat =
      (Num.toNat / 2 ^ 32 * N.toNat + Num.toNat % 2 ^ 32 * N.toNat / 2 ^ 32) * 2 ^ 32 +
        Num.toNat % 2 ^ 32 * N.toNat % 2 ^ 32 := by
    have hparts : Num.toNat * N.toNat = Num.toNat / 2 ^ 32 * N.toNat * 2 ^ 32 +
        Num.toNat % 2 ^ 32 * N.toNat := by
      rw [Nat.mul_right_comm, ← Nat.add_mul]
      congr 1
      omega
    rw [hparts, Nat.add_mul, Nat.add_assoc, Nat.div_add_mod']
  rw [hhigh, hlow] at hleading
  have hquotients := fun Rem : BitVec 64 => @toNat_quotients Rem _ _ hD
    (hLower.trans_lt (Nat.mod_lt _ (Nat.two_pow_pos 32)))
  rw [hproduct, ← hleading, ← hLower]
  exact hquotients _

theorem toNat_scale (hP : P.N.toNat ≤ 2 ^ 31) (Num : BitVec 64) :
    (P.scale Num).toNat = Num.toNat * P.N.toNat / 2 ^ 31 := by
  have hshare : Num.toNat * P.N.toNat / 2 ^ 31 ≤ Num.toNat :=
    Nat.div_le_of_le_mul (Nat.mul_comm (2 ^ 31) _ ▸ Nat.mul_le_mul_left Num.toNat hP)
  unfold scale
  split
  · next h =>
    rcases h with hzero | hone
    · rw [hzero]
      simp
    · rw [← hone, toNat_D, Nat.mul_div_cancel _ (Nat.two_pow_pos 31)]
  · rw [toNat_scaleDigits (by decide), toNat_D]
    omega

theorem scale_le (hP : P.N.toNat ≤ 2 ^ 31) (Num : BitVec 64) :
    (P.scale Num).toNat ≤ Num.toNat := by
  rw [toNat_scale hP]
  exact Nat.div_le_of_le_mul (Nat.mul_comm (2 ^ 31) _ ▸ Nat.mul_le_mul_left Num.toNat hP)

theorem scale_one (Num : BitVec 64) : (⟨D⟩ : BranchProbability).scale Num = Num :=
  if_pos (Or.inr rfl)

theorem scaleByInverse_spec (hpos : 0 < P.N.toNat) (Num : BitVec 64) :
    ∃ Q, P.scaleByInverse Num = some Q ∧
      Q.toNat = min (Num.toNat * 2 ^ 31 / P.N.toNat) (2 ^ 64 - 1) := by
  have hne : P.N ≠ 0 := by
    intro hzero
    rw [hzero] at hpos
    exact absurd hpos (by decide)
  refine ⟨if Num = 0 ∨ P.N = D then Num else scaleDigits Num D P.N, ?_, ?_⟩
  · unfold scaleByInverse
    rw [guard, if_pos hne]
    rfl
  · by_cases h : Num = 0 ∨ P.N = D
    · rw [if_pos h, Nat.min_eq_left]
      · rcases h with hzero | hone
        · rw [hzero]
          simp
        · rw [hone, toNat_D, Nat.mul_div_cancel _ (Nat.two_pow_pos 31)]
      · rcases h with hzero | hone
        · rw [hzero]
          simp
        · rw [hone, toNat_D, Nat.mul_div_cancel _ (Nat.two_pow_pos 31)]
          omega
    · rw [if_neg h, toNat_scaleDigits hpos, toNat_D]

/-! ## Fractions of wide numbers -/

theorem scaleDown_spec (Denominator : BitVec 64) (Scale : Nat) :
    ∃ k, scaleDown Denominator Scale = (Denominator >>> k, Scale + k) ∧
      (Denominator >>> k).toNat < 2 ^ 32 ∧ (0 < k → 2 ^ 31 ≤ (Denominator >>> k).toNat) := by
  induction Denominator, Scale using scaleDown.induct with
  | case1 Denominator Scale hlarge ih =>
    obtain ⟨k, hrun, hlt, hge⟩ := ih
    have hshift : Denominator >>> 1 >>> k = Denominator >>> (k + 1) := by
      rw [← BitVec.shiftRight_add, Nat.add_comm]
    rw [hshift] at hrun hlt hge
    refine ⟨k + 1, ?_, hlt, fun _ => ?_⟩
    · rw [scaleDown, if_pos hlarge, hrun, Nat.add_right_comm, Nat.add_assoc]
    · rcases Nat.eq_zero_or_pos k with rfl | hk
      · have hlarge' : 2 ^ 32 - 1 < Denominator.toNat := hlarge
        rw [toNat_shr]
        omega
      · exact hge hk
  | case2 Denominator Scale hsmall =>
    refine ⟨0, ?_, ?_, fun h => absurd h (lt_irrefl 0)⟩
    · rw [scaleDown, if_neg hsmall]
      simp
    · have hsmall' : ¬2 ^ 32 - 1 < Denominator.toNat := hsmall
      simp only [BitVec.ushiftRight_zero]
      omega

theorem rounded_error (n : ℕ) {d : ℕ} (hpos : 0 < d) :
    |(share (2 ^ 31) d n : ℚ) / 2 ^ 31 - n / d| ≤ 1 / 2 ^ 32 := by
  have herror := (Int.cast_le (R := ℚ)).mpr (share_error (2 ^ 31) n hpos)
  push_cast at herror
  have hcommon : (share (2 ^ 31) d n : ℚ) / 2 ^ 31 - n / d =
      (d * share (2 ^ 31) d n - n * 2 ^ 31) / (2 ^ 31 * d) := by
    field_simp
  rw [abs_le] at herror
  rw [hcommon, abs_le, le_div_iff₀ (by positivity), div_le_iff₀ (by positivity)]
  constructor <;> linarith

theorem halved_error {n d k : ℕ} (hle : n ≤ d) (hpos : 0 < d / 2 ^ k) :
    |((n / 2 ^ k : ℕ) : ℚ) / (d / 2 ^ k : ℕ) - n / d| ≤ 1 / (d / 2 ^ k : ℕ) := by
  have hle' : n / 2 ^ k ≤ d / 2 ^ k := Nat.div_le_div_right hle
  have hpow := Nat.two_pow_pos k
  have hn := Nat.div_add_mod n (2 ^ k)
  have hd := Nat.div_add_mod d (2 ^ k)
  have hnlt := Nat.mod_lt n hpow
  have hdlt := Nat.mod_lt d hpow
  generalize n / 2 ^ k = n' at *
  generalize d / 2 ^ k = d' at *
  generalize n % 2 ^ k = a at *
  generalize d % 2 ^ k = b at *
  generalize 2 ^ k = p at *
  subst hn hd
  have hd' : (0 : ℚ) < d' := Nat.cast_pos.mpr hpos
  have ha : (a : ℚ) ≤ p := Nat.cast_le.mpr hnlt.le
  have hb : (b : ℚ) ≤ p := Nat.cast_le.mpr hdlt.le
  have hb0 : (0 : ℚ) ≤ b := Nat.cast_nonneg b
  have hn' : (n' : ℚ) ≤ d' := Nat.cast_le.mpr hle'
  have hn0 : (0 : ℚ) ≤ n' := Nat.cast_nonneg n'
  have ha0 : (0 : ℚ) ≤ a := Nat.cast_nonneg a
  push_cast
  have hcommon : (n' : ℚ) / d' - (p * n' + a) / (p * d' + b) =
      (n' * b - a * d') / (d' * (p * d' + b)) := by
    field_simp
    ring
  rw [hcommon, abs_le, le_div_iff₀ (by positivity), div_le_iff₀ (by positivity)]
  have hleft : -(1 / (d' : ℚ)) * (d' * (p * d' + b)) = -(p * d' + b) := by field_simp
  have hright : 1 / (d' : ℚ) * (d' * (p * d' + b)) = p * d' + b := by field_simp
  have hnb : (n' : ℚ) * b ≤ d' * p := mul_le_mul hn' hb hb0 hd'.le
  have had : (a : ℚ) * d' ≤ p * d' := mul_le_mul_of_nonneg_right ha hd'.le
  have hnb0 : 0 ≤ (n' : ℚ) * b := mul_nonneg hn0 hb0
  have had0 : 0 ≤ (a : ℚ) * d' := mul_nonneg ha0 hd'.le
  rw [hleft, hright]
  constructor <;> linarith

theorem getBranchProbability_close {n d : BitVec 64} (hpos : 0 < d.toNat) (hle : n.toNat ≤ d.toNat) :
    ∃ P, getBranchProbability n d = some P ∧ P.N.toNat ≤ 2 ^ 31 ∧
      |(P.N.toNat : ℚ) / 2 ^ 31 - n.toNat / d.toNat| ≤ 1 / 2 ^ 30 := by
  obtain ⟨k, hrun, hlt, hge⟩ := scaleDown_spec d 0
  have hshift (x : BitVec 64) : (x >>> k).toNat = x.toNat / 2 ^ k := by
    rw [toNat_shr]
  rw [hshift] at hlt hge
  have hle' : n.toNat / 2 ^ k ≤ d.toNat / 2 ^ k := Nat.div_le_div_right hle
  have hpos' : 0 < d.toNat / 2 ^ k := by
    rcases Nat.eq_zero_or_pos k with rfl | hk
    · simpa using hpos
    · have hbig := hge hk
      omega
  have hnarrow {x : BitVec 64} (hx : x.toNat / 2 ^ k < 2 ^ 32) :
      ((x >>> k).setWidth 32).toNat = x.toNat / 2 ^ k := by
    rw [BitVec.toNat_setWidth, hshift, Nat.mod_eq_of_lt hx]
  have hn := hnarrow (hle'.trans_lt hlt)
  have hd := hnarrow hlt
  obtain ⟨P, hP, hN⟩ := ofFraction_rounded (hpos'.trans_eq hd.symm)
    (show ((n >>> k).setWidth 32).toNat ≤ _ by rw [hn, hd]; exact hle')
  rw [hn, hd] at hN
  refine ⟨P, ?_, hN.trans_le (share_le hpos' hle'), ?_⟩
  · unfold getBranchProbability
    rw [guard, if_pos (BitVec.le_def.mpr hle), hrun]
    simpa using hP
  · have hround := rounded_error (n.toNat / 2 ^ k) hpos'
    rw [← hN] at hround
    have hhalved : |((n.toNat / 2 ^ k : ℕ) : ℚ) / (d.toNat / 2 ^ k : ℕ) - n.toNat / d.toNat| ≤
        1 / 2 ^ 31 := by
      rcases Nat.eq_zero_or_pos k with rfl | hk
      · simp
      · refine (halved_error hle hpos').trans (one_div_le_one_div_of_le (by norm_num) ?_)
        exact_mod_cast hge hk
    have htriangle := abs_sub_le ((P.N.toNat : ℚ) / 2 ^ 31)
      (((n.toNat / 2 ^ k : ℕ) : ℚ) / (d.toNat / 2 ^ k : ℕ)) ((n.toNat : ℚ) / d.toNat)
    linarith

/-- What the products and the quotients by a probability are. -/
structure ScalesExactly (P : BranchProbability) : Prop where
  scale : ∀ Num, (P.scale Num).toNat = Num.toNat * P.N.toNat / 2 ^ 31
  scale_le : ∀ Num, (P.scale Num).toNat ≤ Num.toNat
  scaleByInverse : ∀ Num, ∃ Q, P.scaleByInverse Num = some Q ∧
    Q.toNat = min (Num.toNat * 2 ^ 31 / P.N.toNat) (2 ^ 64 - 1)

/-- Scaling by a probability is exact, and a fraction of wide numbers is close to its
probability. -/
theorem scaling_exact :
    (∀ P : BranchProbability, 0 < P.N.toNat → P.N.toNat ≤ 2 ^ 31 → P.ScalesExactly) ∧
      ∀ n d : BitVec 64, n.toNat ≤ d.toNat → 0 < d.toNat →
        ∃ P, getBranchProbability n d = some P ∧ P.N.toNat ≤ 2 ^ 31 ∧
          |(P.N.toNat : ℚ) / 2 ^ 31 - n.toNat / d.toNat| ≤ 1 / 2 ^ 30 :=
  ⟨fun _ hpos hle => ⟨toNat_scale hle, scale_le hle, scaleByInverse_spec hpos⟩,
    fun _ _ hle hpos => getBranchProbability_close hpos hle⟩

theorem scaling_exact_third :
    (⟨BitVec.ofNat 32 (2 ^ 30)⟩ : BranchProbability).ScalesExactly ∧
      ∃ P, getBranchProbability 1 3 = some P ∧ P.N.toNat ≤ 2 ^ 31 ∧
        |(P.N.toNat : ℚ) / 2 ^ 31 - (1 : BitVec 64).toNat / (3 : BitVec 64).toNat| ≤ 1 / 2 ^ 30 :=
  ⟨scaling_exact.1 _ (by decide) (by decide), scaling_exact.2 1 3 (by decide) (by decide)⟩

end BranchProbability

end SmlnjLlvm.Support
