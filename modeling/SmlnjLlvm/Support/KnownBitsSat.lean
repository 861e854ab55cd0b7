import SmlnjLlvm.Support.KnownBitsAbs

/-!
# Saturating sums and differences of known bits

Overflow is certain, impossible or open. Where it is open, only what the wrapped
result has in common with the saturation constant is kept: the sign of a signed
result, the leading ones of a sum and the leading zeros of a difference.
-/

namespace SmlnjLlvm.KnownBits

open Support APIntOps BitOrder Words

variable {w : Nat}

def countMinLeadingOnes (K : KnownBits w) : Nat := countl_one K.One

/-- The lambda `SignBitKnown`. -/
def signBitKnown (K : KnownBits w) : Bool := K.Zero.msb || K.One.msb

/-- `Overflow`, without a value where it may or may not happen. -/
def satOverflow (Add Signed : Bool) (LHS RHS Res : KnownBits w) : Option Bool :=
  if Signed then
    if LHS.signBitKnown && RHS.signBitKnown && Res.signBitKnown then
      if Add then
        some (LHS.isNonNegative == RHS.isNonNegative && Res.isNonNegative != LHS.isNonNegative)
      else
        some (LHS.isNonNegative != RHS.isNonNegative && Res.isNonNegative != LHS.isNonNegative)
    else none
  else if Add then
    if !(uadd_ov LHS.getMaxValue RHS.getMaxValue).2 then some false
    else if (uadd_ov LHS.getMinValue RHS.getMinValue).2 then some true
    else none
  else
    if !(usub_ov LHS.getMinValue RHS.getMaxValue).2 then some false
    else if (usub_ov LHS.getMaxValue RHS.getMinValue).2 then some true
    else none

def satSign (Add : Bool) (LHS RHS Res : KnownBits w) : KnownBits w :=
  if Add then
    let Res := if LHS.isNonNegative && RHS.isNonNegative then Res.setSignZero else Res
    if LHS.isNegative && RHS.isNegative then Res.setSignOne else Res
  else if LHS.isNegative && RHS.isNonNegative then Res.setSignOne
  else if LHS.isNonNegative && RHS.isNegative then Res.setSignZero
  else Res

def satLeading (Add : Bool) (LHS RHS Res : KnownBits w) : KnownBits w :=
  let LeadingKnown :=
    if Add then max LHS.countMinLeadingOnes RHS.countMinLeadingOnes
    else max LHS.countMinLeadingZeros RHS.countMinLeadingOnes
  let Mask := getHighBitsSet w LeadingKnown
  if Add then ⟨Res.Zero &&& ~~~Mask, Res.One ||| Mask⟩
  else ⟨Res.Zero ||| Mask, Res.One &&& ~~~Mask⟩

/-- What is kept when it is not known whether the result overflowed. -/
def satUnknown (Add Signed : Bool) (Res : KnownBits w) : KnownBits w :=
  if Signed then
    ⟨Res.Zero &&& ~~~getLowBitsSet w (w - 1), Res.One &&& ~~~getLowBitsSet w (w - 1)⟩
  else if Add then ⟨0, Res.One⟩
  else ⟨Res.Zero, 0⟩

/-- The constant `C` that a certain overflow saturates to. -/
def satConstant (Add Signed : Bool) (LHS : KnownBits w) : BitVec w :=
  if Signed then if LHS.isNegative then BitVec.intMin w else BitVec.intMax w
  else if Add then BitVec.allOnes w
  else 0

def computeForSatAddSub (Add Signed : Bool) (LHS RHS : KnownBits w) : Option (KnownBits w) :=
  if LHS.hasConflict || RHS.hasConflict then none
  else (computeForAddSub Add false LHS RHS).bind fun Res =>
    let Overflow := satOverflow Add Signed LHS RHS Res
    let Res := if Signed then satSign Add LHS RHS Res else satLeading Add LHS RHS Res
    match Overflow with
    | some false => assertNoConflict (some Res)
    | some true =>
      if Signed && !LHS.signBitKnown then none
      else assertNoConflict (some (makeConstant (satConstant Add Signed LHS)))
    | none => assertNoConflict (some (satUnknown Add Signed Res))

def sadd_sat (LHS RHS : KnownBits w) : Option (KnownBits w) := computeForSatAddSub true true LHS RHS

def ssub_sat (LHS RHS : KnownBits w) : Option (KnownBits w) := computeForSatAddSub false true LHS RHS

def uadd_sat (LHS RHS : KnownBits w) : Option (KnownBits w) := computeForSatAddSub true false LHS RHS

def usub_sat (LHS RHS : KnownBits w) : Option (KnownBits w) := computeForSatAddSub false false LHS RHS

def wrapped (Add : Bool) (l r : BitVec w) : BitVec w := if Add then l + r else l - r

/-- Whether a concrete pair overflows. -/
def overflows (Add Signed : Bool) (l r : BitVec w) : Bool :=
  if Signed then if Add then (sadd_ov l r).2 else (ssub_ov l r).2
  else if Add then (uadd_ov l r).2 else (usub_ov l r).2

/-- The constant that a concrete pair saturates to. -/
def bound (Add Signed : Bool) (l : BitVec w) : BitVec w :=
  if Signed then signedBound w l.msb else if Add then BitVec.allOnes w else 0

/-- The saturated result of a concrete pair. -/
def saturated (Add Signed : Bool) (l r : BitVec w) : BitVec w :=
  if Signed then if Add then APIntOps.sadd_sat l r else APIntOps.ssub_sat l r
  else if Add then APIntOps.uadd_sat l r else APIntOps.usub_sat l r

theorem saturated_eq (Add Signed : Bool) (l r : BitVec w) :
    saturated Add Signed l r =
      if overflows Add Signed l r then bound Add Signed l else wrapped Add l r := by
  cases Add <;> cases Signed <;> rfl

theorem usub_ov_iff (l r : BitVec w) : (usub_ov l r).2 = true ↔ l.toNat < r.toNat := by
  have hdiff := toNat_sub_cases l r
  rw [usub_ov, BitVec.ult, decide_eq_true_iff]
  omega

variable {LHS RHS Res : KnownBits w} {l r : BitVec w} {Add : Bool}

section Unsigned

variable (hl : l ∈ LHS) (hr : r ∈ RHS)

include hl hr

theorem satOverflow_unsigned {b : Bool} (h : satOverflow Add false LHS RHS Res = some b) :
    overflows Add false l r = b := by
  have hlmin := getMinValue_le hl
  have hlmax := le_getMaxValue hl
  have hrmin := getMinValue_le hr
  have hrmax := le_getMaxValue hr
  rw [satOverflow, if_neg Bool.false_ne_true] at h
  rw [overflows, if_neg Bool.false_ne_true]
  cases Add
  · have hflag := usub_ov_iff l r
    have hleast := usub_ov_iff LHS.getMinValue RHS.getMaxValue
    have hgreatest := usub_ov_iff LHS.getMaxValue RHS.getMinValue
    rw [if_neg Bool.false_ne_true] at h ⊢
    split at h
    · next hno =>
      rw [Bool.not_eq_true', ← Bool.not_eq_true, hleast] at hno
      rw [← Option.some.inj h, ← Bool.not_eq_true, hflag]
      omega
    · split at h
      · next hyes =>
        rw [hgreatest] at hyes
        rw [← Option.some.inj h, hflag]
        omega
      · cases h
  · have hflag := (uadd_ov_spec l r).overflow
    have hleast := (uadd_ov_spec LHS.getMinValue RHS.getMinValue).overflow
    have hgreatest := (uadd_ov_spec LHS.getMaxValue RHS.getMaxValue).overflow
    rw [if_pos rfl] at h ⊢
    split at h
    · next hno =>
      rw [Bool.not_eq_true', ← Bool.not_eq_true, hgreatest] at hno
      rw [← Option.some.inj h, ← Bool.not_eq_true, hflag]
      omega
    · split at h
      · next hyes =>
        rw [hleast] at hyes
        rw [← Option.some.inj h, hflag]
        omega
      · cases h

theorem satLeading_add_mem (hflag : overflows true false l r = false) (h : l + r ∈ Res) :
    l + r ∈ satLeading true LHS RHS Res := by
  have hfits : ¬2 ^ w ≤ l.toNat + r.toNat := fun hover => by
    exact Bool.false_ne_true (hflag.symm.trans ((uadd_ov_spec l r).overflow.mpr hover))
  have hsum : (l + r).toNat = l.toNat + r.toNat := toNat_add_of_lt (Nat.not_le.mp hfits)
  have hones : l + r ∈ (⟨0, getHighBitsSet w
      (max LHS.countMinLeadingOnes RHS.countMinLeadingOnes)⟩ : KnownBits w) := by
    have hlmin := getMinValue_le hl
    have hrmin := getMinValue_le hr
    rcases Nat.le_total LHS.countMinLeadingOnes RHS.countMinLeadingOnes with hle | hle
    · rw [Nat.max_eq_right hle]
      exact mem_highOnes (by unfold getMinValue at hrmin; omega)
    · rw [Nat.max_eq_left hle]
      exact mem_highOnes (by unfold getMinValue at hlmin; omega)
  rw [mem_iff] at h hones ⊢
  intro i
  simp only [satLeading, if_true, BitVec.getLsbD_and, BitVec.getLsbD_or, Bool.and_eq_true,
    Bool.or_eq_true]
  exact ⟨fun hzero => (h i).1 hzero.1, fun hone => hone.elim (h i).2 (hones i).2⟩

theorem satLeading_sub_mem (hflag : overflows false false l r = false) (h : l - r ∈ Res) :
    l - r ∈ satLeading false LHS RHS Res := by
  have hle : ¬l.toNat < r.toNat := fun hlt => by
    exact Bool.false_ne_true (hflag.symm.trans ((usub_ov_iff l r).mpr hlt))
  have hdiff : (l - r).toNat = l.toNat - r.toNat := toNat_sub_of_le (Nat.not_lt.mp hle)
  have hzeros : l - r ∈ (⟨getHighBitsSet w
      (max LHS.countMinLeadingZeros RHS.countMinLeadingOnes), 0⟩ : KnownBits w) := by
    have hlmax := le_getMaxValue hl
    have hrmin := getMinValue_le hr
    have hbelow : ∀ M : BitVec w, (l - r).toNat ≤ M.toNat →
        l - r ∈ (⟨getHighBitsSet w (countl_zero M), 0⟩ : KnownBits w) := fun _ => mem_highZeros
    rcases Nat.le_total LHS.countMinLeadingZeros RHS.countMinLeadingOnes with hmax | hmax
    · rw [Nat.max_eq_right hmax]
      refine hbelow (~~~RHS.One) ?_
      rw [BitVec.toNat_not]
      unfold getMinValue at hrmin
      omega
    · rw [Nat.max_eq_left hmax]
      refine hbelow (~~~LHS.Zero) ?_
      unfold getMaxValue at hlmax
      omega
  rw [mem_iff] at h hzeros ⊢
  intro i
  simp only [satLeading, Bool.false_eq_true, if_false, BitVec.getLsbD_and, BitVec.getLsbD_or,
    Bool.and_eq_true, Bool.or_eq_true]
  exact ⟨fun hzero => hzero.elim (h i).1 (hzeros i).1, fun hone => (h i).2 hone.1⟩

theorem satLeading_mem (hflag : overflows Add false l r = false) (h : wrapped Add l r ∈ Res) :
    wrapped Add l r ∈ satLeading Add LHS RHS Res := by
  cases Add
  · exact satLeading_sub_mem hl hr hflag h
  · exact satLeading_add_mem hl hr hflag h

end Unsigned

/-! ## Signed operands -/

theorem sign_of_isNonNegative (hl : l ∈ LHS) (hknown : LHS.signBitKnown = true) :
    (!l.msb) = LHS.isNonNegative := by
  rw [signBitKnown, Bool.or_eq_true] at hknown
  rcases hknown with hzero | hone
  · rw [msb_of_isNonNegative hl hzero, isNonNegative, hzero]
    rfl
  · have hneg := msb_of_isNegative hl hone
    rw [hneg, isNonNegative]
    cases hzero : LHS.Zero.msb
    · rfl
    · rw [msb_of_isNonNegative hl hzero] at hneg
      cases hneg

def termSign (Add : Bool) (r : BitVec w) : Bool := if Add then r.msb else !r.msb

theorem overflows_signed (l r : BitVec w) :
    overflows Add true l r = ((l.msb == termSign Add r) && ((wrapped Add l r).msb != l.msb)) := by
  cases Add <;> simp [overflows, termSign, wrapped, sadd_ov, ssub_ov] <;>
    cases l.msb <;> cases r.msb <;> simp

theorem satOverflow_signed {b : Bool} (hl : l ∈ LHS) (hr : r ∈ RHS) (hres : wrapped Add l r ∈ Res)
    (h : satOverflow Add true LHS RHS Res = some b) : overflows Add true l r = b := by
  rw [satOverflow, if_pos rfl] at h
  split at h
  · next hknown =>
    simp only [Bool.and_eq_true] at hknown
    have hlsign := sign_of_isNonNegative hl hknown.1.1
    have hrsign := sign_of_isNonNegative hr hknown.1.2
    have hsign := sign_of_isNonNegative hres hknown.2
    rw [overflows_signed, termSign]
    cases Add
    · rw [← Option.some.inj h, ← hlsign, ← hrsign, ← hsign]
      cases l.msb <;> cases r.msb <;> cases (wrapped false l r).msb <;> rfl
    · rw [← Option.some.inj h, ← hlsign, ← hrsign, ← hsign]
      cases l.msb <;> cases r.msb <;> cases (wrapped true l r).msb <;> rfl
  · cases h

theorem msb_intMax (hw : 0 < w) : (BitVec.intMax w).msb = false := by
  have hpos := int_two_pow_pos (w - 1)
  rw [BitVec.msb_eq_toInt, toInt_intMax hw]
  exact decide_eq_false (by omega)

theorem msb_saturated (hw : 0 < w) (hsign : l.msb = termSign Add r) :
    (saturated Add true l r).msb = l.msb := by
  rw [saturated_eq, overflows_signed, hsign, beq_self_eq_true, Bool.true_and]
  split
  · rw [bound, if_pos rfl, signedBound, hsign]
    cases termSign Add r
    · exact msb_intMax hw
    · simp [BitVec.msb_intMin, hw]
  · next heq => simpa using heq

theorem satSign_cases (Add : Bool) (hl : l ∈ LHS) (hr : r ∈ RHS) :
    satSign Add LHS RHS Res = Res ∨
      l.msb = termSign Add r ∧
        satSign Add LHS RHS Res = if l.msb then Res.setSignOne else Res.setSignZero := by
  have hlzero := msb_of_isNonNegative hl
  have hlone := msb_of_isNegative hl
  have hrzero := msb_of_isNonNegative hr
  have hrone := msb_of_isNegative hr
  unfold isNonNegative at hlzero hrzero
  unfold isNegative at hlone hrone
  unfold satSign termSign isNonNegative isNegative
  cases hLZ : LHS.Zero.msb <;> cases hLO : LHS.One.msb <;> cases hRZ : RHS.Zero.msb <;>
    cases hRO : RHS.One.msb <;> cases Add <;> simp_all

theorem signBitKnown_of_wrapped (hRes : computeForAddSub Add false LHS RHS = some Res)
    (hknown : Res.signBitKnown = true) : LHS.signBitKnown = true ∧ RHS.signBitKnown = true := by
  have hflags : ∀ {L R K : KnownBits w} {CarryZero CarryOne : Bool},
      computeForAddCarryFlags L R CarryZero CarryOne = some K → K.signBitKnown = true →
        L.signBitKnown = true ∧ R.signBitKnown = true := by
    intro L R K CarryZero CarryOne h hK
    unfold computeForAddCarryFlags at h
    dsimp only at h
    split_ifs at h
    obtain rfl := Option.some.inj h
    simp only [signBitKnown, knownOfSum, BitVec.msb_and, BitVec.msb_or, Bool.or_eq_true,
      Bool.and_eq_true] at hK ⊢
    tauto
  have hrefine : ∀ L R K : KnownBits w, refineSign false L R K = K := fun L R K => by
    rw [refineSign, if_neg Bool.false_ne_true, ite_self]
  unfold computeForAddSub at hRes
  cases Add
  · rw [if_neg Bool.false_ne_true, Option.map_eq_some_iff] at hRes
    obtain ⟨K, hK, rfl⟩ := hRes
    rw [hrefine] at hknown
    have h := hflags hK hknown
    rwa [signBitKnown, signBitKnown, swap, Bool.or_comm (RHS.One.msb)] at h
  · rw [if_pos rfl, Option.map_eq_some_iff] at hRes
    obtain ⟨K, hK, rfl⟩ := hRes
    rw [hrefine] at hknown
    exact hflags hK hknown

theorem getLsbD_above_low {i : Nat} (hi : i < w) :
    (~~~getLowBitsSet w (w - 1)).getLsbD i = decide (i = w - 1) := by
  rw [BitVec.getLsbD_not, getLsbD_getLowBitsSet, decide_eq_true hi, Bool.true_and, Bool.true_and,
    ← decide_not, decide_eq_decide]
  omega

theorem mem_satUnknown_signed {v : BitVec w} (hzero : Res.Zero.msb = true → v.msb = false)
    (hone : Res.One.msb = true → v.msb = true) : v ∈ satUnknown Add true Res := by
  rw [mem_iff]
  intro i
  rw [BitVec.msb_eq_getLsbD_last, BitVec.msb_eq_getLsbD_last] at hzero hone
  rw [satUnknown, if_pos rfl]
  by_cases hi : i < w
  · simp only [BitVec.getLsbD_and, getLsbD_above_low hi, Bool.and_eq_true, decide_eq_true_iff]
    constructor
    · rintro ⟨hbit, rfl⟩
      exact hzero hbit
    · rintro ⟨hbit, rfl⟩
      exact hone hbit
  · simp [BitVec.getLsbD_of_ge _ _ (Nat.not_lt.mp hi)]

theorem saturated_mem_satUnknown (hw : 0 < w) (hl : l ∈ LHS) (hr : r ∈ RHS)
    (hRes : computeForAddSub Add false LHS RHS = some Res)
    (hnone : satOverflow Add true LHS RHS Res = none) :
    saturated Add true l r ∈ satUnknown Add true (satSign Add LHS RHS Res) := by
  rcases satSign_cases Add hl hr with heq | ⟨hsign, heq⟩
  · have hunknown : ¬Res.signBitKnown = true := by
      intro hknown
      obtain ⟨hlknown, hrknown⟩ := signBitKnown_of_wrapped hRes hknown
      rw [satOverflow, if_pos rfl, hlknown, hrknown, hknown, Bool.and_self, Bool.and_self,
        if_pos rfl] at hnone
      split at hnone <;> cases hnone
    rw [signBitKnown, Bool.or_eq_true, not_or] at hunknown
    rw [heq]
    exact mem_satUnknown_signed (fun h => absurd h hunknown.1) (fun h => absurd h hunknown.2)
  · have hmsb := msb_saturated hw hsign
    rw [heq]
    cases hl' : l.msb
    · rw [if_neg Bool.false_ne_true]
      refine mem_satUnknown_signed (fun _ => hmsb.trans hl') fun h => ?_
      simp [setSignZero, BitVec.msb_and, BitVec.msb_intMin, hw] at h
    · rw [if_pos rfl]
      refine mem_satUnknown_signed (fun h => ?_) fun _ => hmsb.trans hl'
      simp [setSignOne, BitVec.msb_and, BitVec.msb_intMin, hw] at h

theorem satSign_mem (hw : 0 < w) (hl : l ∈ LHS) (hr : r ∈ RHS)
    (hflag : overflows Add true l r = false) (h : wrapped Add l r ∈ Res) :
    wrapped Add l r ∈ satSign Add LHS RHS Res := by
  rcases satSign_cases Add hl hr with heq | ⟨hsign, heq⟩
  · rwa [heq]
  · have hmsb := msb_saturated hw hsign
    rw [saturated_eq, hflag, if_neg Bool.false_ne_true] at hmsb
    rw [heq]
    cases hl' : l.msb
    · rw [if_neg Bool.false_ne_true]
      exact setSignZero_mem h (hmsb.trans hl')
    · rw [if_pos rfl]
      exact setSignOne_mem h (hmsb.trans hl')

/-! ## The results -/

theorem mem_satUnknown_unsigned (Add : Bool) {v : BitVec w} (h : v ∈ Res) :
    v ∈ satUnknown Add false Res := by
  rw [mem_iff] at h ⊢
  intro i
  rw [satUnknown, if_neg Bool.false_ne_true]
  cases Add
  · exact ⟨(h i).1, fun hone => by simp at hone⟩
  · exact ⟨fun hzero => by simp at hzero, (h i).2⟩

theorem bound_mem_satUnknown (Add : Bool) (l : BitVec w) (Res : KnownBits w) :
    bound Add false l ∈ satUnknown Add false Res := by
  rw [mem_iff]
  intro i
  rw [satUnknown, bound, if_neg Bool.false_ne_true, if_neg Bool.false_ne_true]
  cases Add
  · simp
  · refine ⟨fun hzero => by simp at hzero, fun hone => ?_⟩
    rw [if_pos rfl, BitVec.getLsbD_allOnes]
    exact decide_eq_true (BitVec.lt_of_getLsbD hone)

theorem bound_eq_satConstant {Signed : Bool} (hl : l ∈ LHS)
    (hknown : Signed = true → LHS.signBitKnown = true) :
    bound Add Signed l = satConstant Add Signed LHS := by
  cases Signed
  · rfl
  · have hsign := sign_of_isNonNegative hl (hknown rfl)
    rw [bound, satConstant, if_pos rfl, if_pos rfl, signedBound]
    cases hneg : LHS.isNegative
    · have hzero : LHS.isNonNegative = true := by
        have h := hknown rfl
        rw [isNegative] at hneg
        rwa [signBitKnown, hneg, Bool.or_false] at h
      rw [msb_of_isNonNegative hl hzero]
    · rw [msb_of_isNegative hl hneg]

theorem signBitKnown_of_overflow {Signed b : Bool}
    (h : satOverflow Add Signed LHS RHS Res = some b) (hsigned : Signed = true) :
    LHS.signBitKnown = true := by
  subst hsigned
  rw [satOverflow, if_pos rfl] at h
  split at h
  · next hknown =>
    simp only [Bool.and_eq_true] at hknown
    exact hknown.1.1
  · cases h

theorem satOverflow_spec {Signed b : Bool} (hl : l ∈ LHS) (hr : r ∈ RHS)
    (hres : wrapped Add l r ∈ Res) (h : satOverflow Add Signed LHS RHS Res = some b) :
    overflows Add Signed l r = b := by
  cases Signed
  · exact satOverflow_unsigned hl hr h
  · exact satOverflow_signed hl hr hres h

/-- What is known of a result that does not overflow. -/
def satRefined (Add Signed : Bool) (LHS RHS Res : KnownBits w) : KnownBits w :=
  if Signed then satSign Add LHS RHS Res else satLeading Add LHS RHS Res

theorem satRefined_mem (hw : 0 < w) {Signed : Bool} (hl : l ∈ LHS) (hr : r ∈ RHS)
    (hflag : overflows Add Signed l r = false) (h : wrapped Add l r ∈ Res) :
    wrapped Add l r ∈ satRefined Add Signed LHS RHS Res := by
  cases Signed
  · exact satLeading_mem hl hr hflag h
  · exact satSign_mem hw hl hr hflag h

theorem satUnknown_mem (hw : 0 < w) {Signed : Bool} (hl : l ∈ LHS) (hr : r ∈ RHS)
    (hRes : computeForAddSub Add false LHS RHS = some Res) (hmem : wrapped Add l r ∈ Res)
    (hnone : satOverflow Add Signed LHS RHS Res = none) :
    saturated Add Signed l r ∈ satUnknown Add Signed (satRefined Add Signed LHS RHS Res) := by
  cases Signed
  · rw [saturated_eq]
    split
    · exact bound_mem_satUnknown Add l _
    · next hflag =>
      exact mem_satUnknown_unsigned Add (satRefined_mem hw hl hr (Bool.not_eq_true _ ▸ hflag) hmem)
  · exact saturated_mem_satUnknown hw hl hr hRes hnone

/-- The result describes the saturated result of every pair, and no assertion fails. -/
theorem computeForSatAddSub_spec (hw : 0 < w) (Add Signed : Bool) (LHS RHS : KnownBits w)
    (hL : LHS.hasConflict = false) (hR : RHS.hasConflict = false) :
    ∃ K, computeForSatAddSub Add Signed LHS RHS = some K ∧ K.hasConflict = false ∧
      ∀ l ∈ LHS, ∀ r ∈ RHS, saturated Add Signed l r ∈ K := by
  obtain ⟨Res, hRes, -, hmem⟩ := computeForAddSub_mem Add false hL hR
  have hwrapped : ∀ l ∈ LHS, ∀ r ∈ RHS, wrapped Add l r ∈ Res := fun l hl r hr =>
    hmem l hl r hr fun h => absurd h Bool.false_ne_true
  have hfinish : ∀ K : KnownBits w, (∀ l ∈ LHS, ∀ r ∈ RHS, saturated Add Signed l r ∈ K) →
      ∃ K', assertNoConflict (some K) = some K' ∧ K'.hasConflict = false ∧
        ∀ l ∈ LHS, ∀ r ∈ RHS, saturated Add Signed l r ∈ K' := by
    intro K hK
    have hmin := hK _ (getMinValue_mem hL) _ (getMinValue_mem hR)
    exact ⟨K, assertNoConflict_of_mem hmin, not_conflict_of_mem hmin, hK⟩
  rw [computeForSatAddSub, hL, hR, Bool.or_self, if_neg Bool.false_ne_true, hRes, Option.bind_some]
  dsimp only
  cases hover : satOverflow Add Signed LHS RHS Res with
  | none => exact hfinish _ fun l hl r hr => satUnknown_mem hw hl hr hRes (hwrapped l hl r hr) hover
  | some b =>
    have hflag : ∀ l ∈ LHS, ∀ r ∈ RHS, overflows Add Signed l r = b := fun l hl r hr =>
      satOverflow_spec hl hr (hwrapped l hl r hr) hover
    cases b with
    | false =>
      refine hfinish _ fun l hl r hr => ?_
      rw [saturated_eq, hflag l hl r hr, if_neg Bool.false_ne_true]
      exact satRefined_mem hw hl hr (hflag l hl r hr) (hwrapped l hl r hr)
    | true =>
      have hknown := signBitKnown_of_overflow hover
      have hassert : (Signed && !LHS.signBitKnown) = false := by
        cases Signed
        · rfl
        · rw [hknown rfl]
          rfl
      dsimp only
      rw [hassert, if_neg Bool.false_ne_true]
      refine hfinish _ fun l hl r hr => ?_
      rw [saturated_eq, hflag l hl r hr, if_pos rfl, mem_makeConstant]
      exact bound_eq_satConstant hl hknown

/-- A byte `11??????` plus a byte `01??????`. -/
theorem computeForSatAddSub_byte :
    ∃ K, computeForSatAddSub true false (⟨0, 0xC0⟩ : KnownBits 8) ⟨0x80, 0x40⟩ = some K ∧
      K.hasConflict = false ∧
      ∀ l ∈ (⟨0, 0xC0⟩ : KnownBits 8), ∀ r ∈ (⟨0x80, 0x40⟩ : KnownBits 8),
        saturated true false l r ∈ K :=
  computeForSatAddSub_spec (by decide) true false _ _ (by decide) (by decide)

end SmlnjLlvm.KnownBits
