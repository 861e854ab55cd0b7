import SmlnjLlvm.Support.KnownBitsAdd
import SmlnjLlvm.Support.KnownBitsRem

/-!
# Comparisons of known bits

The least and the greatest member decide a comparison, and both are attained. The
maximum of two operands is derived with `makeGE`, and the other extremes follow
from it by flipping the order of the words.
-/

namespace SmlnjLlvm.KnownBits

open Support APIntOps BitOrder Words

variable {w : Nat}

/-- The comparisons have no value where the result is not known. -/
def eq (LHS RHS : KnownBits w) : Option Bool :=
  if LHS.isConstant && RHS.isConstant then some (LHS.One == RHS.One)
  else if LHS.One &&& RHS.Zero != 0 || RHS.One &&& LHS.Zero != 0 then some false
  else none

def ne (LHS RHS : KnownBits w) : Option Bool := (eq LHS RHS).map (!·)

def ugt (LHS RHS : KnownBits w) : Option Bool :=
  if LHS.getMaxValue.ule RHS.getMinValue then some false
  else if RHS.getMaxValue.ult LHS.getMinValue then some true
  else none

def uge (LHS RHS : KnownBits w) : Option Bool := (ugt RHS LHS).map (!·)

def ult (LHS RHS : KnownBits w) : Option Bool := ugt RHS LHS

def ule (LHS RHS : KnownBits w) : Option Bool := uge RHS LHS

def sgt (LHS RHS : KnownBits w) : Option Bool :=
  if LHS.getSignedMaxValue.sle RHS.getSignedMinValue then some false
  else if RHS.getSignedMaxValue.slt LHS.getSignedMinValue then some true
  else none

def sge (LHS RHS : KnownBits w) : Option Bool := (sgt RHS LHS).map (!·)

def slt (LHS RHS : KnownBits w) : Option Bool := sgt RHS LHS

def sle (LHS RHS : KnownBits w) : Option Bool := sge RHS LHS

/-- The bits from the known zeros and the leading ones of `Val`. -/
def makeGE (K : KnownBits w) (Val : BitVec w) : KnownBits w :=
  let N := countl_one (K.Zero ||| Val)
  let MaskedVal := Val &&& ~~~getLowBitsSet w (w - N)
  ⟨K.Zero, K.One ||| MaskedVal⟩

def umax (LHS RHS : KnownBits w) : KnownBits w :=
  if RHS.getMaxValue.ule LHS.getMinValue then LHS
  else if LHS.getMaxValue.ule RHS.getMinValue then RHS
  else
    let L := LHS.makeGE RHS.getMinValue
    let R := RHS.makeGE LHS.getMinValue
    L.intersectWith R

def umin (LHS RHS : KnownBits w) : KnownBits w := (umax LHS.swap RHS.swap).swap

def setBitVal (V : BitVec w) (BitPosition : Nat) (BitValue : Bool) : BitVec w :=
  if BitValue then V ||| BitVec.twoPow w BitPosition else V &&& ~~~BitVec.twoPow w BitPosition

/-- The `Flip` of `smax`. -/
def flipSign (Val : KnownBits w) : KnownBits w :=
  ⟨setBitVal Val.Zero (w - 1) Val.One.msb, setBitVal Val.One (w - 1) Val.Zero.msb⟩

/-- The `Flip` of `smin`. -/
def flipRest (Val : KnownBits w) : KnownBits w :=
  ⟨setBitVal Val.One (w - 1) Val.Zero.msb, setBitVal Val.Zero (w - 1) Val.One.msb⟩

def smax (LHS RHS : KnownBits w) : KnownBits w := (umax LHS.flipSign RHS.flipSign).flipSign

def smin (LHS RHS : KnownBits w) : KnownBits w := (umax LHS.flipRest RHS.flipRest).flipRest

variable {K LHS RHS : KnownBits w}

/-! ## Comparisons -/

/-- The value that a comparison returns, for all pairs of members or for none. -/
structure Decides (LHS RHS : KnownBits w) (rel : BitVec w → BitVec w → Prop)
    (result : Option Bool) : Prop where
  yes : result = some true ↔ ∀ l ∈ LHS, ∀ r ∈ RHS, rel l r
  no : result = some false ↔ ∀ l ∈ LHS, ∀ r ∈ RHS, ¬rel l r
  neither : result = none ↔ (¬∀ l ∈ LHS, ∀ r ∈ RHS, rel l r) ∧ ¬∀ l ∈ LHS, ∀ r ∈ RHS, ¬rel l r

variable {l r v : BitVec w} {rel : BitVec w → BitVec w → Prop} {result : Option Bool}

theorem Decides.of_known (hyes : result = some true ↔ ∀ l ∈ LHS, ∀ r ∈ RHS, rel l r)
    (hno : result = some false ↔ ∀ l ∈ LHS, ∀ r ∈ RHS, ¬rel l r) : Decides LHS RHS rel result := by
  refine ⟨hyes, hno, ?_⟩
  rw [← hyes, ← hno]
  rcases result with _ | _ | _ <;> simp

theorem Decides.symm (h : Decides RHS LHS rel result) :
    Decides LHS RHS (fun l r => rel r l) result := by
  apply Decides.of_known
  · rw [h.yes]
    exact ⟨fun hall l hl r hr => hall r hr l hl, fun hall l hl r hr => hall r hr l hl⟩
  · rw [h.no]
    exact ⟨fun hall l hl r hr => hall r hr l hl, fun hall l hl r hr => hall r hr l hl⟩

theorem Decides.not (h : Decides LHS RHS rel result) :
    Decides LHS RHS (fun l r => ¬rel l r) (result.map (!·)) := by
  apply Decides.of_known
  · rw [← h.no]
    rcases result with _ | _ | _ <;> simp
  · simp only [not_not]
    rw [← h.yes]
    rcases result with _ | _ | _ <;> simp

theorem Decides.congr {rel' : BitVec w → BitVec w → Prop} (h : Decides LHS RHS rel result)
    (hrel : ∀ l r, rel l r ↔ rel' l r) : Decides LHS RHS rel' result := by
  have heq : rel = rel' := by
    funext l r
    exact propext (hrel l r)
  rwa [← heq]

theorem decides_of_extremes {f : BitVec w → Int} {Lmin Lmax Rmin Rmax : BitVec w}
    (hLmin : Lmin ∈ LHS) (hLmax : Lmax ∈ LHS) (hRmin : Rmin ∈ RHS) (hRmax : Rmax ∈ RHS)
    (hL : ∀ l ∈ LHS, f Lmin ≤ f l ∧ f l ≤ f Lmax) (hR : ∀ r ∈ RHS, f Rmin ≤ f r ∧ f r ≤ f Rmax) :
    Decides LHS RHS (fun l r => f r < f l)
      (if f Lmax ≤ f Rmin then some false else if f Rmax < f Lmin then some true else none) := by
  have hLle := (hL Lmin hLmin).2
  have hRle := (hR Rmin hRmin).2
  have hyes : (∀ l ∈ LHS, ∀ r ∈ RHS, f r < f l) ↔ f Rmax < f Lmin := by
    refine ⟨fun h => h Lmin hLmin Rmax hRmax, fun h l hl r hr => ?_⟩
    have hl' := (hL l hl).1
    have hr' := (hR r hr).2
    omega
  have hno : (∀ l ∈ LHS, ∀ r ∈ RHS, ¬f r < f l) ↔ f Lmax ≤ f Rmin := by
    refine ⟨fun h => Int.not_lt.mp (h Lmax hLmax Rmin hRmin), fun h l hl r hr => ?_⟩
    have hl' := (hL l hl).2
    have hr' := (hR r hr).1
    omega
  apply Decides.of_known
  · rw [hyes]
    split_ifs <;> simp <;> omega
  · rw [hno]
    split_ifs <;> simp <;> omega

theorem isConstant_iff (h : K.hasConflict = false) :
    K.isConstant = true ↔ K.getMinValue = K.getMaxValue := by
  constructor
  · intro hconst
    exact (eq_of_isConstant (getMaxValue_mem h) hconst).symm
  · intro heq
    have hbits : ∀ i ∈ List.range w, K.One.getLsbD i = !K.Zero.getLsbD i := by
      intro i hi
      have hbit := congrArg (fun v : BitVec w => v.getLsbD i) heq
      simpa [getMinValue, getMaxValue, List.mem_range.mp hi] using hbit
    have hcount : popcount K.One = (List.range w).countP fun i => !K.Zero.getLsbD i :=
      List.countP_congr fun i hi => by rw [hbits i hi]
    have hlength := List.length_eq_countP_add_countP (fun i => K.Zero.getLsbD i) (l := List.range w)
    rw [isConstant, beq_iff_eq, hcount, popcount]
    simpa using hlength.symm

section Comparisons

variable (hL : LHS.hasConflict = false) (hR : RHS.hasConflict = false)

include hL hR

theorem exists_eq_members (hdisjoint : LHS.One &&& RHS.Zero = 0)
    (hdisjoint' : RHS.One &&& LHS.Zero = 0) : ∃ v, v ∈ LHS ∧ v ∈ RHS := by
  refine ⟨LHS.One ||| RHS.One, ?_⟩
  rw [and_eq_zero_iff] at hdisjoint hdisjoint'
  rw [hasConflict_eq_false_iff] at hL hR
  simp only [mem_iff, BitVec.getLsbD_or, Bool.or_eq_true, Bool.or_eq_false_iff]
  constructor
  · intro i
    refine ⟨fun hzero => ⟨?_, hdisjoint' i hzero⟩, Or.inl⟩
    exact Bool.eq_false_of_not_eq_true fun hone => by simp [hL i hone] at hzero
  · intro i
    refine ⟨fun hzero => ⟨hdisjoint i hzero, ?_⟩, Or.inr⟩
    exact Bool.eq_false_of_not_eq_true fun hone => by simp [hR i hone] at hzero

omit hL hR in
theorem ne_of_intersects (hl : l ∈ LHS) (hr : r ∈ RHS) (hbits : LHS.One &&& RHS.Zero ≠ 0) :
    l ≠ r := by
  rintro rfl
  apply hbits
  rw [and_eq_zero_iff]
  intro i hzero
  refine Bool.eq_false_of_not_eq_true fun hone => ?_
  have hset := (mem_iff.mp hl i).2 hone
  rw [(mem_iff.mp hr i).1 hzero] at hset
  cases hset

theorem not_all_eq (hconst : ¬(LHS.isConstant && RHS.isConstant) = true) :
    ¬∀ l ∈ LHS, ∀ r ∈ RHS, l = r := by
  intro hall
  apply hconst
  rw [Bool.and_eq_true, isConstant_iff hL, isConstant_iff hR]
  have hmin := hall _ (getMinValue_mem hL)
  have hmax := hall _ (getMaxValue_mem hL)
  exact ⟨(hmin _ (getMinValue_mem hR)).trans (hmax _ (getMinValue_mem hR)).symm,
    (hmin _ (getMinValue_mem hR)).symm.trans (hmin _ (getMaxValue_mem hR))⟩

theorem eq_decides : Decides LHS RHS (fun l r => l = r) (eq LHS RHS) := by
  unfold eq
  split
  · next hconst =>
    rw [Bool.and_eq_true] at hconst
    have hl : ∀ l ∈ LHS, l = LHS.One := fun l hl => eq_of_isConstant hl hconst.1
    have hr : ∀ r ∈ RHS, r = RHS.One := fun r hr => eq_of_isConstant hr hconst.2
    apply Decides.of_known
    · rw [Option.some.injEq, beq_iff_eq]
      refine ⟨fun heq l hlmem r hrmem => ?_, fun hall => ?_⟩
      · rw [hl l hlmem, hr r hrmem, heq]
      · exact hall _ (getMinValue_mem hL) _ (getMinValue_mem hR)
    · rw [Option.some.injEq, beq_eq_false_iff_ne]
      refine ⟨fun hne l hlmem r hrmem => ?_, fun hall => ?_⟩
      · rw [hl l hlmem, hr r hrmem]
        exact hne
      · exact hall _ (getMinValue_mem hL) _ (getMinValue_mem hR)
  · next hconst =>
    have hnot := not_all_eq hL hR hconst
    split
    · next hbits =>
      rw [Bool.or_eq_true, bne_iff_ne, bne_iff_ne] at hbits
      have hne : ∀ l ∈ LHS, ∀ r ∈ RHS, ¬l = r := by
        intro l hl r hr
        rcases hbits with hbits | hbits
        · exact ne_of_intersects hl hr hbits
        · exact (ne_of_intersects hr hl hbits).symm
      apply Decides.of_known
      · simpa using hnot
      · simpa using hne
    · next hbits =>
      rw [Bool.or_eq_true, bne_iff_ne, bne_iff_ne, not_or, not_not, not_not] at hbits
      obtain ⟨v, hvl, hvr⟩ := exists_eq_members hL hR hbits.1 hbits.2
      apply Decides.of_known
      · simpa using hnot
      · exact iff_of_false (by simp) fun hall => hall v hvl v hvr rfl

theorem ugt_decides : Decides LHS RHS (fun l r => r.toNat < l.toNat) (ugt LHS RHS) := by
  have h := decides_of_extremes (f := fun v => (v.toNat : Int)) (getMinValue_mem hL)
    (getMaxValue_mem hL) (getMinValue_mem hR) (getMaxValue_mem hR)
    (fun l hl => ⟨by exact_mod_cast getMinValue_le hl, by exact_mod_cast le_getMaxValue hl⟩)
    (fun r hr => ⟨by exact_mod_cast getMinValue_le hr, by exact_mod_cast le_getMaxValue hr⟩)
  simp only [Nat.cast_lt, Nat.cast_le] at h
  simpa only [ugt, BitVec.ule, BitVec.ult, decide_eq_true_iff] using h

theorem sgt_decides (hw : 0 < w) :
    Decides LHS RHS (fun l r => r.toInt < l.toInt) (sgt LHS RHS) := by
  have h := decides_of_extremes (f := BitVec.toInt) (getSignedMinValue_mem hL)
    (getSignedMaxValue_mem hL) (getSignedMinValue_mem hR) (getSignedMaxValue_mem hR)
    (fun l hl => ⟨getSignedMinValue_le hw hl, le_getSignedMaxValue hw hl⟩)
    (fun r hr => ⟨getSignedMinValue_le hw hr, le_getSignedMaxValue hw hr⟩)
  simpa only [sgt, BitVec.sle, BitVec.slt, decide_eq_true_iff] using h

end Comparisons

theorem makeGE_mem {Val : BitVec w} (h : v ∈ K) (hge : Val.toNat ≤ v.toNat) :
    v ∈ K.makeGE Val := by
  have hN : countl_one (K.Zero ||| Val) ≤ w := countl_zero_le _
  have hlead := (le_countl_one_iff_bits hN).mp (Nat.le_refl _)
  have hbelow : Below (v >>> (w - countl_one (K.Zero ||| Val)))
      (Val >>> (w - countl_one (K.Zero ||| Val))) := by
    intro i hi
    rw [BitVec.getLsbD_ushiftRight] at hi ⊢
    have hor := hlead _ (Nat.le_add_right _ i) (BitVec.lt_of_getLsbD hi)
    rw [BitVec.getLsbD_or, Bool.or_eq_true] at hor
    rcases hor with hzero | hval
    · rw [(mem_iff.mp h _).1 hzero] at hi
      cases hi
    · exact hval
  have heq : v >>> (w - countl_one (K.Zero ||| Val)) = Val >>> (w - countl_one (K.Zero ||| Val)) := by
    apply BitVec.eq_of_toNat_eq
    apply Nat.le_antisymm hbelow.toNat_le
    rw [BitVec.toNat_ushiftRight, toNat_shr,
      Nat.shiftRight_eq_div_pow]
    exact Nat.div_le_div_right hge
  rw [mem_iff] at h ⊢
  intro i
  refine ⟨(h i).1, fun hone => ?_⟩
  simp only [makeGE, BitVec.getLsbD_or, BitVec.getLsbD_and, BitVec.getLsbD_not,
    getLsbD_getLowBitsSet, Bool.or_eq_true, Bool.and_eq_true, Bool.not_eq_true',
    decide_eq_true_iff, Bool.and_eq_false_iff, decide_eq_false_iff_not] at hone
  rcases hone with hone | ⟨hval, hiw, hlow⟩
  · exact (h i).2 hone
  · have hle : w - countl_one (K.Zero ||| Val) ≤ i := by omega
    have hbit := congrArg (fun x : BitVec w => x.getLsbD (i - (w - countl_one (K.Zero ||| Val)))) heq
    simp only [BitVec.getLsbD_ushiftRight, Nat.add_sub_cancel' hle] at hbit
    rw [hbit, hval]

theorem umax_mem (hl : l ∈ LHS) (hr : r ∈ RHS) : APIntOps.umax l r ∈ umax LHS RHS := by
  have hlmin := getMinValue_le hl
  have hlmax := le_getMaxValue hl
  have hrmin := getMinValue_le hr
  have hrmax := le_getMaxValue hr
  simp only [umax, APIntOps.umax, BitVec.ule, BitVec.ult, decide_eq_true_iff]
  split_ifs with hL hgt hR hgt hgt
  · exact hl
  · have heq : r = l := BitVec.eq_of_toNat_eq (by omega)
    rwa [heq]
  · have heq : l = r := BitVec.eq_of_toNat_eq (by omega)
    rwa [heq]
  · exact hr
  · exact mem_intersectWith_left _ (makeGE_mem hl (by omega))
  · exact mem_intersectWith_right _ (makeGE_mem hr (by omega))

theorem umin_mem (hl : l ∈ LHS) (hr : r ∈ RHS) : APIntOps.umin l r ∈ umin LHS RHS := by
  have h := not_mem_swap (umax_mem (not_mem_swap hl) (not_mem_swap hr))
  have heq : ~~~APIntOps.umax (~~~l) (~~~r) = APIntOps.umin l r := by
    apply BitVec.eq_of_toNat_eq
    rw [BitVec.toNat_not, toNat_umax, toNat_umin, BitVec.toNat_not, BitVec.toNat_not]
    omega
  rwa [heq] at h

theorem getLsbD_setBitVal {V : BitVec w} {p i : Nat} {b : Bool} (hi : i < w) :
    (setBitVal V p b).getLsbD i = if i = p then b else V.getLsbD i := by
  unfold setBitVal
  cases b
  · rw [if_neg Bool.false_ne_true, BitVec.getLsbD_and, BitVec.getLsbD_not, BitVec.getLsbD_twoPow]
    by_cases heq : i = p
    · simp [heq ▸ hi, heq]
    · simp [heq, Ne.symm heq, hi]
  · rw [if_pos rfl, BitVec.getLsbD_or, BitVec.getLsbD_twoPow]
    by_cases heq : i = p
    · simp [heq ▸ hi, heq]
    · simp [heq, Ne.symm heq]

/-- The word with the other sign. -/
def flipMsb (v : BitVec w) : BitVec w := v ^^^ BitVec.intMin w

theorem getLsbD_flipMsb (v : BitVec w) {i : Nat} (hi : i < w) :
    (flipMsb v).getLsbD i = (v.getLsbD i ^^ decide (i = w - 1)) := by
  rw [flipMsb, BitVec.getLsbD_xor, BitVec.getLsbD_intMin]
  congr 1
  rw [decide_eq_decide]
  omega

theorem flipMsb_flipMsb (v : BitVec w) : flipMsb (flipMsb v) = v := by
  rw [flipMsb, flipMsb, BitVec.xor_assoc, BitVec.xor_self, BitVec.xor_zero]

theorem toNat_flipMsb (hw : 0 < w) (v : BitVec w) :
    ((flipMsb v).toNat : Int) = v.toInt + 2 ^ (w - 1) := by
  have hadd : flipMsb v = v + BitVec.intMin w := by
    apply BitVec.eq_of_getLsbD_eq
    intro i hi
    have hcarry : BitVec.carry i v (BitVec.intMin w) false = false := by
      have hdvd : 2 ^ i ∣ (BitVec.intMin w).toNat := by
        rw [toNat_intMin hw]
        exact pow_dvd_pow 2 (by omega)
      have hlow := Nat.mod_lt v.toNat (Nat.two_pow_pos i)
      rw [BitVec.carry, Nat.mod_eq_zero_of_dvd hdvd]
      simpa using hlow
    rw [BitVec.getLsbD_add hi, hcarry, Bool.xor_false, flipMsb, BitVec.getLsbD_xor]
  have hcases := toInt_sign_cases v
  have hsum := toNat_add_cases v (BitVec.intMin w)
  have hpow := two_pow_eq hw
  have hcast := cast_two_pow (w - 1)
  rw [toNat_intMin hw] at hsum
  rw [hadd]
  omega

theorem flipSign_mem (h : v ∈ K) : flipMsb v ∈ K.flipSign := by
  rw [mem_iff] at h ⊢
  intro i
  by_cases hi : i < w
  · rw [flipSign, getLsbD_setBitVal hi, getLsbD_setBitVal hi, getLsbD_flipMsb v hi]
    obtain ⟨hzero, hone⟩ := h i
    split
    · next heq =>
      rw [BitVec.msb_eq_getLsbD_last, BitVec.msb_eq_getLsbD_last, ← heq, decide_eq_true (Eq.refl i),
        Bool.xor_true]
      exact ⟨fun h => by rw [hone h]; rfl, fun h => by rw [hzero h]; rfl⟩
    · next hne =>
      rw [decide_eq_false hne, Bool.xor_false]
      exact ⟨hzero, hone⟩
  · simp [BitVec.getLsbD_of_ge _ _ (Nat.not_lt.mp hi)]

theorem smax_mem (hw : 0 < w) (hl : l ∈ LHS) (hr : r ∈ RHS) :
    APIntOps.smax l r ∈ smax LHS RHS := by
  have h := flipSign_mem (umax_mem (flipSign_mem hl) (flipSign_mem hr))
  have heq : flipMsb (APIntOps.umax (flipMsb l) (flipMsb r)) = APIntOps.smax l r := by
    have hlflip := toNat_flipMsb hw l
    have hrflip := toNat_flipMsb hw r
    unfold APIntOps.umax APIntOps.smax BitVec.ult BitVec.slt
    simp only [decide_eq_true_iff]
    split_ifs
    · exact flipMsb_flipMsb l
    · omega
    · omega
    · exact flipMsb_flipMsb r
  rwa [heq] at h

theorem smin_mem (hw : 0 < w) (hl : l ∈ LHS) (hr : r ∈ RHS) :
    APIntOps.smin l r ∈ smin LHS RHS := by
  have hflip : ∀ {Q : KnownBits w} {v : BitVec w}, v ∈ Q → ~~~flipMsb v ∈ Q.flipRest :=
    fun hv => not_mem_swap (flipSign_mem hv)
  have h := hflip (umax_mem (hflip hl) (hflip hr))
  have heq : ~~~flipMsb (APIntOps.umax (~~~flipMsb l) (~~~flipMsb r)) = APIntOps.smin l r := by
    have hlflip := toNat_flipMsb hw l
    have hrflip := toNat_flipMsb hw r
    have hback : ∀ v : BitVec w, ~~~flipMsb (~~~flipMsb v) = v := by
      intro v
      rw [flipMsb, flipMsb, ← BitVec.not_xor_left, BitVec.not_not, BitVec.xor_assoc,
        BitVec.xor_self, BitVec.xor_zero]
    unfold APIntOps.umax APIntOps.smin BitVec.ult BitVec.slt
    simp only [decide_eq_true_iff, BitVec.toNat_not]
    split_ifs
    · exact hback l
    · omega
    · omega
    · exact hback r
  rwa [heq] at h

end SmlnjLlvm.KnownBits
