import SmlnjLlvm.Library.Quotients
import SmlnjLlvm.Support.MathExtras

/-!
# Operations on integers of one width

The value of an `APInt` of width `w` is a word, and its operations are those of
the source on such values. An operation that reports an overflow returns the
wrapped result with the report; a saturating one clamps the exact result to the
range of the type. A failed assertion is no result.
-/

namespace SmlnjLlvm.APIntOps

open Support Words

variable {w d : Nat}

/-! ## Definitions -/

def umin (A B : BitVec w) : BitVec w := if A.ult B then A else B

def umax (A B : BitVec w) : BitVec w := if B.ult A then A else B

def smin (A B : BitVec w) : BitVec w := if A.slt B then A else B

def smax (A B : BitVec w) : BitVec w := if B.slt A then A else B

def getLimitedValue (A : BitVec w) (Limit : Nat) : Nat :=
  if Limit < A.toNat then Limit else A.toNat

def shl (A ShiftAmt : BitVec w) : BitVec w := A <<< getLimitedValue ShiftAmt w

def lshr (A ShiftAmt : BitVec w) : BitVec w := A >>> getLimitedValue ShiftAmt w

def ashr (A ShiftAmt : BitVec w) : BitVec w := A.sshiftRight (getLimitedValue ShiftAmt w)

def udiv (A RHS : BitVec w) : Option (BitVec w) := if RHS = 0 then none else some (A / RHS)

def urem (A RHS : BitVec w) : Option (BitVec w) := if RHS = 0 then none else some (A % RHS)

def sdiv (A RHS : BitVec w) : Option (BitVec w) :=
  if A.msb then
    if RHS.msb then udiv (-A) (-RHS) else (udiv (-A) RHS).map (-·)
  else if RHS.msb then (udiv A (-RHS)).map (-·)
  else udiv A RHS

def srem (A RHS : BitVec w) : Option (BitVec w) :=
  if A.msb then
    if RHS.msb then (urem (-A) (-RHS)).map (-·) else (urem (-A) RHS).map (-·)
  else if RHS.msb then urem A (-RHS)
  else urem A RHS

def sadd_ov (A RHS : BitVec w) : BitVec w × Bool :=
  let Res := A + RHS
  (Res, (!A.msb == !RHS.msb) && (!Res.msb != !A.msb))

def uadd_ov (A RHS : BitVec w) : BitVec w × Bool :=
  let Res := A + RHS
  (Res, Res.ult RHS)

def ssub_ov (A RHS : BitVec w) : BitVec w × Bool :=
  let Res := A - RHS
  (Res, (!A.msb != !RHS.msb) && (!Res.msb != !A.msb))

def usub_ov (A RHS : BitVec w) : BitVec w × Bool :=
  let Res := A - RHS
  (Res, A.ult Res)

def smul_ov (A RHS : BitVec w) : BitVec w × Bool :=
  let Res := A * RHS
  if RHS ≠ 0 then
    -- The divisor is not zero, so the division has a result.
    (Res, decide (sdiv Res RHS ≠ some A) ||
      (decide (A = BitVec.intMin w) && decide (RHS = BitVec.allOnes w)))
  else (Res, false)

def umul_ov (A RHS : BitVec w) : BitVec w × Bool :=
  if countl_zero A + countl_zero RHS + 2 ≤ w then (A * RHS, true)
  else
    let Res := A >>> 1 * RHS
    let Overflow := Res.msb
    let Res := Res <<< 1
    if A.getLsbD 0 then
      let Res := Res + RHS
      (Res, Overflow || Res.ult RHS)
    else (Res, Overflow)

def sshl_ov (A : BitVec w) (ShAmt : Nat) : BitVec w × Bool :=
  if w ≤ ShAmt then (0, true)
  else if !A.msb then (A <<< ShAmt, decide (countl_zero A ≤ ShAmt))
  else (A <<< ShAmt, decide (countl_one A ≤ ShAmt))

def ushl_ov (A : BitVec w) (ShAmt : Nat) : BitVec w × Bool :=
  if w ≤ ShAmt then (0, true) else (A <<< ShAmt, decide (countl_zero A < ShAmt))

def getActiveBits (V : BitVec w) : Nat := w - countl_zero V

def getBitsSetFrom (numBits loBit : Nat) : BitVec numBits := BitVec.allOnes numBits <<< loBit

def getLowBitsSet (numBits loBitsSet : Nat) : BitVec numBits :=
  BitVec.setWidth numBits (BitVec.allOnes loBitsSet)

def getHighBitsSet (numBits hiBitsSet : Nat) : BitVec numBits :=
  getBitsSetFrom numBits (numBits - hiBitsSet)

def isPowerOf2 (V : BitVec w) : Bool := V != 0 && V &&& (V - 1) == 0

/-- `APInt::Rounding` -/
inductive Rounding where
  | DOWN
  | TOWARD_ZERO
  | UP
  deriving DecidableEq, Repr

def RoundingUDiv (A B : BitVec w) : Rounding → Option (BitVec w)
  | .DOWN | .TOWARD_ZERO => udiv A B
  | .UP => do
    let Quo ← udiv A B
    let Rem ← urem A B
    if Rem = 0 then some Quo else some (Quo + 1)

def RoundingSDiv (A B : BitVec w) : Rounding → Option (BitVec w)
  | .DOWN => do
    let Quo ← sdiv A B
    let Rem ← srem A B
    if Rem = 0 then some Quo
    else if Rem.msb != B.msb then some (Quo - 1)
    else some Quo
  | .UP => do
    let Quo ← sdiv A B
    let Rem ← srem A B
    if Rem = 0 then some Quo
    else if Rem.msb != B.msb then some Quo
    else some (Quo + 1)
  | .TOWARD_ZERO => sdiv A B

/-- The bound that a signed overflow saturates to. -/
def signedBound (w : Nat) (negative : Bool) : BitVec w :=
  if negative then BitVec.intMin w else BitVec.intMax w

def sadd_sat (A RHS : BitVec w) : BitVec w :=
  if (sadd_ov A RHS).2 then signedBound w A.msb else (sadd_ov A RHS).1

def uadd_sat (A RHS : BitVec w) : BitVec w :=
  if (uadd_ov A RHS).2 then BitVec.allOnes w else (uadd_ov A RHS).1

def ssub_sat (A RHS : BitVec w) : BitVec w :=
  if (ssub_ov A RHS).2 then signedBound w A.msb else (ssub_ov A RHS).1

def usub_sat (A RHS : BitVec w) : BitVec w :=
  if (usub_ov A RHS).2 then 0 else (usub_ov A RHS).1

def smul_sat (A RHS : BitVec w) : BitVec w :=
  if (smul_ov A RHS).2 then signedBound w (A.msb ^^ RHS.msb) else (smul_ov A RHS).1

def umul_sat (A RHS : BitVec w) : BitVec w :=
  if (umul_ov A RHS).2 then BitVec.allOnes w else (umul_ov A RHS).1

def sshl_sat (A RHS : BitVec w) : BitVec w :=
  let ov := sshl_ov A (getLimitedValue RHS w)
  if ov.2 then signedBound w A.msb else ov.1

def ushl_sat (A RHS : BitVec w) : BitVec w :=
  let ov := ushl_ov A (getLimitedValue RHS w)
  if ov.2 then BitVec.allOnes w else ov.1

theorem toNat_umin (A B : BitVec w) : (umin A B).toNat = min A.toNat B.toNat := by
  unfold umin BitVec.ult
  by_cases hlt : A.toNat < B.toNat
  · rw [if_pos (decide_eq_true hlt)]
    omega
  · rw [if_neg (by simpa using hlt)]
    omega

theorem toNat_umax (A B : BitVec w) : (umax A B).toNat = max A.toNat B.toNat := by
  unfold umax BitVec.ult
  by_cases hlt : B.toNat < A.toNat
  · rw [if_pos (decide_eq_true hlt)]
    omega
  · rw [if_neg (by simpa using hlt)]
    omega

theorem toInt_smin (A B : BitVec w) : (smin A B).toInt = min A.toInt B.toInt := by
  unfold smin BitVec.slt
  by_cases hlt : A.toInt < B.toInt
  · rw [if_pos (decide_eq_true hlt)]
    omega
  · rw [if_neg (by simpa using hlt)]
    omega

theorem toInt_smax (A B : BitVec w) : (smax A B).toInt = max A.toInt B.toInt := by
  unfold smax BitVec.slt
  by_cases hlt : B.toInt < A.toInt
  · rw [if_pos (decide_eq_true hlt)]
    omega
  · rw [if_neg (by simpa using hlt)]
    omega

theorem getLimitedValue_eq (A : BitVec w) (Limit : Nat) :
    getLimitedValue A Limit = min A.toNat Limit := by
  unfold getLimitedValue
  split
  · omega
  · omega

theorem toNat_lshr (A ShiftAmt : BitVec w) :
    (lshr A ShiftAmt).toNat = A.toNat / 2 ^ min ShiftAmt.toNat w := by
  rw [lshr, toNat_shr, getLimitedValue_eq]

theorem toInt_ashr (A ShiftAmt : BitVec w) :
    (ashr A ShiftAmt).toInt = A.toInt / 2 ^ min ShiftAmt.toNat w := by
  rw [ashr, BitVec.toInt_sshiftRight, Int.shiftRight_eq_div_pow, getLimitedValue_eq]
  rfl

variable {A B RHS V : BitVec w} {ShAmt : Nat} {n : Int}

theorem getActiveBits_le_iff (hd : d ≤ w) : getActiveBits V ≤ d ↔ V.toNat < 2 ^ d := by
  have hle := le_countl_zero_iff (v := V) (s := w - d) (by omega)
  rw [Nat.sub_sub_self hd] at hle
  unfold getActiveBits
  omega

theorem getLsbD_getLowBitsSet (w n i : Nat) :
    (getLowBitsSet w n).getLsbD i = (decide (i < w) && decide (i < n)) := by
  rw [getLowBitsSet, BitVec.getLsbD_setWidth, BitVec.getLsbD_allOnes]

theorem getLsbD_getHighBitsSet (w n i : Nat) :
    (getHighBitsSet w n).getLsbD i = (decide (i < w) && decide (w - n ≤ i)) := by
  rw [getHighBitsSet, getBitsSetFrom, BitVec.getLsbD_shiftLeft, BitVec.getLsbD_allOnes,
    Bool.eq_iff_iff]
  simp only [Bool.and_eq_true, Bool.not_eq_true', decide_eq_true_iff, decide_eq_false_iff_not]
  omega

theorem toNat_and_getBitsSetFrom :
    (V &&& getBitsSetFrom w d).toNat = V.toNat - V.toNat % 2 ^ d := by
  have heq : V &&& getBitsSetFrom w d = (V >>> d) <<< d := by
    apply BitVec.eq_of_getLsbD_eq
    intro i hi
    rw [BitVec.getLsbD_and, getBitsSetFrom, BitVec.getLsbD_shiftLeft, BitVec.getLsbD_shiftLeft,
      BitVec.getLsbD_allOnes, BitVec.getLsbD_ushiftRight, decide_eq_true hi]
    by_cases hlt : i < d
    · simp [hlt]
    · have hsum : d + (i - d) = i := by omega
      have hin : i - d < w := by omega
      rw [decide_eq_false hlt, hsum, decide_eq_true hin]
      simp
  have hdiv := Nat.div_add_mod V.toNat (2 ^ d)
  rw [heq, BitVec.toNat_shiftLeft, BitVec.toNat_ushiftRight, Nat.shiftLeft_eq,
    Nat.shiftRight_eq_div_pow, Nat.mul_comm, Nat.mod_eq_of_lt (by omega)]
  omega

theorem toNat_clearBit (hlt : V.toNat < 2 ^ (d + 1)) :
    (V &&& ~~~BitVec.twoPow w d).toNat = V.toNat % 2 ^ d := by
  apply Nat.eq_of_testBit_eq
  intro i
  rw [BitVec.testBit_toNat, BitVec.getLsbD_and, BitVec.getLsbD_not, BitVec.getLsbD_twoPow,
    Nat.testBit_mod_two_pow, BitVec.testBit_toNat]
  rcases Nat.lt_trichotomy i d with hi | rfl | hi
  · by_cases hw : i < w
    · simp [hi, hw, Nat.ne_of_gt hi]
    · rw [BitVec.getLsbD_of_ge V i (Nat.not_lt.mp hw), Bool.false_and, Bool.and_false]
  · by_cases hw : i < w
    · simp [hw]
    · simp [BitVec.getLsbD_of_ge V i (Nat.not_lt.mp hw)]
  · have hzero : V.getLsbD i = false := by
      rw [← BitVec.testBit_toNat]
      exact Nat.testBit_lt_two_pow (Nat.lt_of_lt_of_le hlt (Nat.pow_le_pow_right (by decide) hi))
    rw [hzero, Bool.false_and, Bool.and_false]

theorem neg_ne_zero (h : A ≠ 0) : -A ≠ 0 := by
  intro hneg
  exact h (BitVec.neg_eq_zero_iff.mp hneg)

theorem udiv_eq (A : BitVec w) (h : RHS ≠ 0) : udiv A RHS = some (A / RHS) :=
  if_neg h

theorem urem_eq (A : BitVec w) (h : RHS ≠ 0) : urem A RHS = some (A % RHS) :=
  if_neg h

theorem sdiv_eq (A : BitVec w) (h : RHS ≠ 0) : sdiv A RHS = some (A.sdiv RHS) := by
  have hneg := neg_ne_zero h
  unfold sdiv BitVec.sdiv
  cases A.msb with
  | true =>
    cases RHS.msb with
    | true => exact udiv_eq _ hneg
    | false =>
      simp only [if_true, Bool.false_eq_true, if_false, udiv_eq _ h, Option.map_some]
      rfl
  | false =>
    cases RHS.msb with
    | true =>
      simp only [if_true, Bool.false_eq_true, if_false, udiv_eq _ hneg, Option.map_some]
      rfl
    | false => exact udiv_eq _ h

theorem srem_eq (A : BitVec w) (h : RHS ≠ 0) : srem A RHS = some (A.srem RHS) := by
  have hneg := neg_ne_zero h
  unfold srem BitVec.srem
  cases A.msb with
  | true =>
    cases RHS.msb with
    | true =>
      simp only [if_true, urem_eq _ hneg, Option.map_some]
      rfl
    | false =>
      simp only [if_true, Bool.false_eq_true, if_false, urem_eq _ h, Option.map_some]
      rfl
  | false =>
    cases RHS.msb with
    | true => exact urem_eq _ hneg
    | false => exact urem_eq _ h

/-- A signed quotient with its remainder, far from the ends where the remainder is not zero. -/
structure SignedQuotient (A B Quo Rem : BitVec w) : Prop where
  value : A.toInt = Quo.toInt * B.toInt + Rem.toInt
  bound : Rem.toInt.natAbs < B.toInt.natAbs
  room : Rem.toInt ≠ 0 → -(2 ^ (w - 1)) < Quo.toInt ∧ Quo.toInt + 1 < 2 ^ (w - 1)

theorem toInt_ne_zero_iff : B.toInt ≠ 0 ↔ B ≠ 0 := by
  rw [ne_eq, ne_eq, ← BitVec.toInt_inj, BitVec.ofNat_eq_ofNat, BitVec.toInt_zero]

theorem signedQuotient (hw : 0 < w) (hB : B ≠ 0)
    (hno : A ≠ BitVec.intMin w ∨ B ≠ BitVec.allOnes w) :
    SignedQuotient A B (A.sdiv B) (A.srem B) := by
  have hquo : (A.sdiv B).toInt = A.toInt.tdiv B.toInt := by
    apply BitVec.toInt_sdiv_of_ne_or_ne
    rwa [BitVec.neg_one_eq_allOnes]
  have hrem : (A.srem B).toInt = A.toInt.tmod B.toInt := BitVec.toInt_srem A B
  have hbound : (A.srem B).toInt.natAbs < B.toInt.natAbs := by
    rw [hrem, Int.natAbs_tmod]
    exact Nat.mod_lt _ (Int.natAbs_pos.mpr (toInt_ne_zero_iff.mpr hB))
  refine ⟨?_, hbound, fun hne => ?_⟩
  · rw [hquo, hrem, Int.tdiv_mul_add_tmod]
  · have hA := toInt_bounds hw A
    have hB_bounds := toInt_bounds hw B
    have hhalf := Quotients.two_mul_tdiv_lt (hrem ▸ hne)
    rw [hquo]
    omega

theorem RoundingSDiv_eq (hw : 0 < w) (hB : B ≠ 0)
    (hno : A ≠ BitVec.intMin w ∨ B ≠ BitVec.allOnes w) :
    (∃ D, RoundingSDiv A B .DOWN = some D ∧ D.toInt =
      if (A.srem B).toInt ≠ 0 ∧ ((A.srem B).toInt < 0 ↔ 0 < B.toInt) then (A.sdiv B).toInt - 1
      else (A.sdiv B).toInt) ∧
    ∃ U, RoundingSDiv A B .UP = some U ∧ U.toInt =
      if (A.srem B).toInt ≠ 0 ∧ (0 < (A.srem B).toInt ↔ 0 < B.toInt) then (A.sdiv B).toInt + 1
      else (A.sdiv B).toInt := by
  have hquotient := signedQuotient hw hB hno
  have hBne := toInt_ne_zero_iff.mpr hB
  have hsub := toInt_sub_one_cases hw (A.sdiv B)
  have hadd := toInt_add_one_cases hw (A.sdiv B)
  have hsigns : ((A.srem B).msb != B.msb) = true ↔ ¬((A.srem B).toInt < 0 ↔ B.toInt < 0) := by
    rw [BitVec.msb_eq_toInt, BitVec.msb_eq_toInt]
    simp
  simp only [RoundingSDiv, sdiv_eq A hB, srem_eq A hB, Option.bind_eq_bind, Option.bind_some,
    hsigns]
  by_cases hzero : A.srem B = 0
  · have hint : (A.srem B).toInt = 0 := by
      rw [hzero, BitVec.ofNat_eq_ofNat, BitVec.toInt_zero]
    simp [hzero]
  · have hne := toInt_ne_zero_iff.mpr hzero
    have hroom := hquotient.room hne
    simp only [if_neg hzero]
    constructor
    · split_ifs <;> refine ⟨_, rfl, ?_⟩ <;> omega
    · split_ifs <;> refine ⟨_, rfl, ?_⟩ <;> omega

theorem RoundingSDiv_pos (hw : 0 < w) (A : BitVec w) (hB : 0 < B.toInt) :
    (∃ D, RoundingSDiv A B .DOWN = some D ∧ ∀ n : Int, n ≤ D.toInt ↔ n * B.toInt ≤ A.toInt) ∧
    ∃ U, RoundingSDiv A B .UP = some U ∧ ∀ n : Int, U.toInt ≤ n ↔ A.toInt ≤ n * B.toInt := by
  have hBne : B ≠ 0 := toInt_ne_zero_iff.mp (Int.ne_of_gt hB)
  have hno : A ≠ BitVec.intMin w ∨ B ≠ BitVec.allOnes w := by
    refine Or.inr fun h => ?_
    rw [h, BitVec.toInt_allOnes, if_pos hw] at hB
    omega
  have hquotient := signedQuotient hw hBne hno
  have hbound := hquotient.bound
  obtain ⟨⟨D, hD, hDeq⟩, U, hU, hUeq⟩ := RoundingSDiv_eq hw hBne hno
  refine ⟨⟨D, hD, fun n => ?_⟩, U, hU, fun n => ?_⟩
  · rw [← Quotients.le_round_down_iff hB hquotient.value (by omega), hDeq]
    split_ifs <;> omega
  · rw [← Quotients.round_up_le_iff hB hquotient.value (by omega), hUeq]
    split_ifs <;> omega

theorem RoundingSDiv_neg (hw : 0 < w) (hB : B.toInt < 0)
    (hno : A ≠ BitVec.intMin w ∨ B ≠ BitVec.allOnes w) :
    (∃ D, RoundingSDiv A B .DOWN = some D ∧ ∀ n : Int, n ≤ D.toInt ↔ A.toInt ≤ n * B.toInt) ∧
    ∃ U, RoundingSDiv A B .UP = some U ∧ ∀ n : Int, U.toInt ≤ n ↔ n * B.toInt ≤ A.toInt := by
  have hBne : B ≠ 0 := toInt_ne_zero_iff.mp (Int.ne_of_lt hB)
  have hquotient := signedQuotient hw hBne hno
  have hbound := hquotient.bound
  have hvalue : -A.toInt = (A.sdiv B).toInt * -B.toInt + -(A.srem B).toInt := by
    rw [hquotient.value, Int.mul_neg]
    omega
  obtain ⟨⟨D, hD, hDeq⟩, U, hU, hUeq⟩ := RoundingSDiv_eq hw hBne hno
  refine ⟨⟨D, hD, fun n => ?_⟩, U, hU, fun n => ?_⟩
  · have hdown := Quotients.le_round_down_iff (n := n) (Int.neg_pos_of_neg hB) hvalue (by omega)
    rw [Int.mul_neg] at hdown
    have hiff : A.toInt ≤ n * B.toInt ↔ -(n * B.toInt) ≤ -A.toInt := by omega
    rw [hiff, ← hdown, hDeq]
    split_ifs <;> omega
  · have hup := Quotients.round_up_le_iff (n := n) (Int.neg_pos_of_neg hB) hvalue (by omega)
    rw [Int.mul_neg] at hup
    have hiff : n * B.toInt ≤ A.toInt ↔ -A.toInt ≤ -(n * B.toInt) := by omega
    rw [hiff, ← hup, hUeq]
    split_ifs <;> omega

/-- A number that the signed words of a width can hold. -/
def SignedFits (w : Nat) (n : Int) : Prop := -(2 ^ (w - 1)) ≤ n ∧ n < 2 ^ (w - 1)

instance (w : Nat) (n : Int) : Decidable (SignedFits w n) :=
  inferInstanceAs (Decidable (-(2 ^ (w - 1) : Int) ≤ n ∧ n < 2 ^ (w - 1)))

/-- The signed number of a width that is nearest to a number. -/
def clampSigned (w : Nat) (n : Int) : Int := max (-(2 ^ (w - 1))) (min (2 ^ (w - 1) - 1) n)

/-- The unsigned number of a width that is nearest to a number. -/
def clampUnsigned (w : Nat) (n : Nat) : Nat := min (2 ^ w - 1) n

theorem clampSigned_mono {m : Int} (h : m ≤ n) : clampSigned w m ≤ clampSigned w n := by
  unfold clampSigned
  omega

theorem clampUnsigned_mono {m n : Nat} (h : m ≤ n) : clampUnsigned w m ≤ clampUnsigned w n := by
  unfold clampUnsigned
  omega

theorem clampSigned_of_fits (h : SignedFits w n) : clampSigned w n = n := by
  unfold SignedFits at h
  unfold clampSigned
  omega

theorem clampUnsigned_of_lt {n : Nat} (h : n < 2 ^ w) : clampUnsigned w n = n := by
  unfold clampUnsigned
  omega

/-- The report is right, and without an overflow so is the result. -/
structure SignedResult (r : BitVec w × Bool) (n : Int) : Prop where
  overflow : r.2 = true ↔ ¬SignedFits w n
  value : SignedFits w n → r.1.toInt = n

structure UnsignedResult (r : BitVec w × Bool) (n : Nat) : Prop where
  overflow : r.2 = true ↔ 2 ^ w ≤ n
  value : n < 2 ^ w → r.1.toNat = n

theorem SignedResult.saturate (hw : 0 < w) {r : BitVec w × Bool} {negative : Bool}
    (h : SignedResult r n) (hsign : ¬SignedFits w n → (negative = true ↔ n < 0)) :
    (if r.2 then signedBound w negative else r.1).toInt = clampSigned w n := by
  have hpos := int_two_pow_pos (w - 1)
  by_cases hfit : SignedFits w n
  · rw [if_neg fun hov => h.overflow.mp hov hfit, h.value hfit, clampSigned_of_fits hfit]
  · have hneg := hsign hfit
    rw [if_pos (h.overflow.mpr hfit), signedBound, clampSigned]
    unfold SignedFits at hfit
    cases negative with
    | true =>
      rw [if_pos rfl, toInt_intMin hw]
      have hlt := hneg.mp rfl
      omega
    | false =>
      rw [if_neg Bool.false_ne_true, toInt_intMax hw]
      have hge : ¬n < 0 := fun hlt => Bool.false_ne_true (hneg.mpr hlt)
      omega

theorem UnsignedResult.saturate {r : BitVec w × Bool} {n : Nat} (h : UnsignedResult r n) :
    (if r.2 then BitVec.allOnes w else r.1).toNat = clampUnsigned w n := by
  rcases Nat.lt_or_ge n (2 ^ w) with hlt | hge
  · rw [if_neg fun hov => Nat.not_le.mpr hlt (h.overflow.mp hov), h.value hlt,
      clampUnsigned_of_lt hlt]
  · rw [if_pos (h.overflow.mpr hge), BitVec.toNat_allOnes, clampUnsigned]
    omega

theorem sadd_ov_spec (hw : 0 < w) (A B : BitVec w) :
    SignedResult (sadd_ov A B) (A.toInt + B.toInt) := by
  have hA := toInt_bounds hw A
  have hB := toInt_bounds hw B
  have hS := toInt_bounds hw (A + B)
  have hsum := toInt_add_cases hw A B
  have hov : (sadd_ov A B).2 = true ↔
      (A.toInt < 0 ↔ B.toInt < 0) ∧ ¬((A + B).toInt < 0 ↔ A.toInt < 0) := by
    simp [sadd_ov, BitVec.msb_eq_toInt]
  constructor
  · rw [hov]
    unfold SignedFits
    omega
  · unfold SignedFits
    intro hfit
    change (A + B).toInt = A.toInt + B.toInt
    omega

theorem ssub_ov_spec (hw : 0 < w) (A B : BitVec w) :
    SignedResult (ssub_ov A B) (A.toInt - B.toInt) := by
  have hA := toInt_bounds hw A
  have hB := toInt_bounds hw B
  have hS := toInt_bounds hw (A - B)
  have hdiff := toInt_sub_cases hw A B
  have hov : (ssub_ov A B).2 = true ↔
      ¬(A.toInt < 0 ↔ B.toInt < 0) ∧ ¬((A - B).toInt < 0 ↔ A.toInt < 0) := by
    simp [ssub_ov, BitVec.msb_eq_toInt]
  constructor
  · rw [hov]
    unfold SignedFits
    omega
  · unfold SignedFits
    intro hfit
    change (A - B).toInt = A.toInt - B.toInt
    omega

theorem uadd_ov_spec (A B : BitVec w) : UnsignedResult (uadd_ov A B) (A.toNat + B.toNat) := by
  have hsum := toNat_add_cases A B
  constructor
  · change decide ((A + B).toNat < B.toNat) = true ↔ _
    rw [decide_eq_true_iff]
    omega
  · intro hfit
    change (A + B).toNat = A.toNat + B.toNat
    omega

theorem toInt_sadd_sat (hw : 0 < w) (A B : BitVec w) :
    (sadd_sat A B).toInt = clampSigned w (A.toInt + B.toInt) := by
  refine (sadd_ov_spec hw A B).saturate hw ?_
  have hB := toInt_bounds hw B
  rw [BitVec.msb_eq_toInt, decide_eq_true_iff]
  unfold SignedFits
  omega

theorem toInt_ssub_sat (hw : 0 < w) (A B : BitVec w) :
    (ssub_sat A B).toInt = clampSigned w (A.toInt - B.toInt) := by
  refine (ssub_ov_spec hw A B).saturate hw ?_
  have hB := toInt_bounds hw B
  rw [BitVec.msb_eq_toInt, decide_eq_true_iff]
  unfold SignedFits
  omega

theorem toNat_uadd_sat (A B : BitVec w) :
    (uadd_sat A B).toNat = clampUnsigned w (A.toNat + B.toNat) :=
  (uadd_ov_spec A B).saturate

theorem toNat_usub_sat (A B : BitVec w) : (usub_sat A B).toNat = A.toNat - B.toNat := by
  have hdiff := toNat_sub_cases A B
  change (if decide (A.toNat < (A - B).toNat) = true then (0 : BitVec w) else A - B).toNat = _
  by_cases hlt : A.toNat < (A - B).toNat
  · rw [if_pos (decide_eq_true hlt)]
    change 0 = A.toNat - B.toNat
    omega
  · rw [if_neg (by simpa using hlt)]
    omega

/-! ## Multiplication -/

theorem toInt_mul_of_fits (h : SignedFits w (A.toInt * B.toInt)) :
    (A * B).toInt = A.toInt * B.toInt := by
  apply BitVec.toInt_mul_of_not_smulOverflow
  unfold SignedFits at h
  simp only [BitVec.smulOverflow, Bool.or_eq_true, decide_eq_true_iff]
  omega

theorem fits_of_sdiv_mul (hw : 0 < w) (hB : B ≠ 0) (hdiv : (A * B).sdiv B = A)
    (hno : ¬(A = BitVec.intMin w ∧ B = BitVec.allOnes w)) : SignedFits w (A.toInt * B.toInt) := by
  have hproper : A * B ≠ BitVec.intMin w ∨ B ≠ -1#w := by
    by_contra hboth
    rw [not_or, not_not, not_not] at hboth
    refine hno ⟨?_, by rw [hboth.2, BitVec.neg_one_eq_allOnes]⟩
    rw [hboth.1, hboth.2, BitVec.intMin_sdiv_neg_one] at hdiv
    exact hdiv.symm
  have hquot : A.toInt = (A * B).toInt.tdiv B.toInt := by
    rw [← BitVec.toInt_sdiv_of_ne_or_ne _ _ hproper, hdiv]
  have hB_ne : B.toInt ≠ 0 := by
    intro hzero
    exact hB (BitVec.eq_of_toInt_eq (hzero.trans BitVec.toInt_zero.symm))
  have hrem : (A * B).toInt - A.toInt * B.toInt = (A * B).toInt.tmod B.toInt := by
    have hsum := Int.mul_tdiv_add_tmod (A * B).toInt B.toInt
    rw [← hquot, Int.mul_comm] at hsum
    omega
  have hsmall : ((A * B).toInt.tmod B.toInt).natAbs < 2 ^ w := by
    have hlt : (A * B).toInt.natAbs % B.toInt.natAbs < B.toInt.natAbs :=
      Nat.mod_lt _ (Int.natAbs_pos.mpr hB_ne)
    have hcases := toInt_sign_cases B
    rw [Int.natAbs_tmod]
    omega
  have hdvd : ((2 ^ w : Nat) : Int) ∣ (A * B).toInt.tmod B.toInt := by
    rw [← hrem, BitVec.toInt_mul]
    exact Int.dvd_bmod_sub_self
  have hzero : (A * B).toInt.tmod B.toInt = 0 :=
    Int.eq_zero_of_dvd_of_natAbs_lt_natAbs hdvd (by simpa using hsmall)
  have hfit := toInt_bounds hw (A * B)
  unfold SignedFits
  omega

theorem smul_ov_spec (hw : 0 < w) (A B : BitVec w) :
    SignedResult (smul_ov A B) (A.toInt * B.toInt) := by
  have hpos := int_two_pow_pos (w - 1)
  have hfst : (smul_ov A B).1 = A * B := by
    unfold smul_ov
    split
    · rfl
    · rfl
  refine ⟨?_, fun hfit => hfst ▸ toInt_mul_of_fits hfit⟩
  by_cases hB : B = 0
  · have hsnd : (smul_ov A B).2 = false := by rw [smul_ov, if_neg (not_not_intro hB)]
    have hfit : SignedFits w (A.toInt * B.toInt) := by
      have hzero : (0 : BitVec w).toInt = 0 := BitVec.toInt_zero
      rw [hB, hzero, Int.mul_zero]
      unfold SignedFits
      omega
    rw [hsnd]
    exact iff_of_false Bool.false_ne_true (not_not_intro hfit)
  · rw [smul_ov, if_pos hB, Bool.or_eq_true, Bool.and_eq_true, decide_eq_true_iff,
      decide_eq_true_iff, decide_eq_true_iff, sdiv_eq _ hB]
    constructor
    · rintro (hdiff | ⟨rfl, rfl⟩) hfit
      · have hB_ne : B.toInt ≠ 0 := fun hzero =>
          hB (BitVec.eq_of_toInt_eq (hzero.trans BitVec.toInt_zero.symm))
        apply hdiff
        rw [Option.some.injEq]
        apply BitVec.eq_of_toInt_eq
        rw [BitVec.toInt_sdiv, toInt_mul_of_fits hfit, Int.mul_tdiv_cancel _ hB_ne,
          BitVec.toInt_bmod_cancel]
      · rw [toInt_intMin hw, BitVec.toInt_allOnes, if_pos hw] at hfit
        unfold SignedFits at hfit
        omega
    · intro hfit
      by_contra hno
      rw [not_or, not_not] at hno
      exact hfit (fits_of_sdiv_mul hw hB (Option.some.inj hno.1) hno.2)

theorem toInt_smul_sat (hw : 0 < w) (A B : BitVec w) :
    (smul_sat A B).toInt = clampSigned w (A.toInt * B.toInt) := by
  refine (smul_ov_spec hw A B).saturate hw ?_
  have hpos := int_two_pow_pos (w - 1)
  intro hfit
  have hne : A.toInt * B.toInt ≠ 0 := by
    intro hzero
    unfold SignedFits at hfit
    omega
  have hA : A.toInt ≠ 0 := left_ne_zero_of_mul hne
  have hB : B.toInt ≠ 0 := right_ne_zero_of_mul hne
  rw [mul_neg_iff, BitVec.msb_eq_toInt, BitVec.msb_eq_toInt, Bool.xor_iff_ne, ne_eq,
    decide_eq_decide]
  omega

theorem half_mul_lt (h : w < countl_zero A + countl_zero B + 2) :
    A.toNat / 2 * B.toNat < 2 ^ w := by
  have hA : A.toNat < 2 ^ (w - countl_zero A) := (le_countl_zero_iff (countl_zero_le A)).mp le_rfl
  have hB : B.toNat < 2 ^ (w - countl_zero B) := (le_countl_zero_iff (countl_zero_le B)).mp le_rfl
  rcases Nat.eq_zero_or_pos (A.toNat / 2) with hzero | hpos
  · rw [hzero, Nat.zero_mul]
    exact Nat.two_pow_pos w
  · have hsmall : countl_zero A + 1 ≤ w := by
      by_contra hall
      rw [show w - countl_zero A = 0 by omega] at hA
      omega
    have hhalf : A.toNat / 2 < 2 ^ (w - countl_zero A - 1) := by
      have hsucc : 2 ^ (w - countl_zero A) = 2 * 2 ^ (w - countl_zero A - 1) := by
        rw [← Nat.pow_succ', Nat.succ_eq_add_one, Nat.sub_add_cancel (by omega)]
      omega
    calc
      A.toNat / 2 * B.toNat < 2 ^ (w - countl_zero A - 1) * 2 ^ (w - countl_zero B) :=
        Nat.mul_lt_mul'' hhalf hB
      _ = 2 ^ (w - countl_zero A - 1 + (w - countl_zero B)) := (Nat.pow_add 2 _ _).symm
      _ ≤ 2 ^ w := Nat.pow_le_pow_right (by decide) (by omega)

theorem two_pow_le_mul (h : countl_zero A + countl_zero B + 2 ≤ w) :
    2 ^ w ≤ A.toNat * B.toNat := by
  have hA : ¬A.toNat < 2 ^ (w - (countl_zero A + 1)) := by
    rw [← le_countl_zero_iff (by omega)]
    omega
  have hB : ¬B.toNat < 2 ^ (w - (countl_zero B + 1)) := by
    rw [← le_countl_zero_iff (by omega)]
    omega
  calc
    2 ^ w ≤ 2 ^ (w - (countl_zero A + 1) + (w - (countl_zero B + 1))) :=
      Nat.pow_le_pow_right (by decide) (by omega)
    _ = 2 ^ (w - (countl_zero A + 1)) * 2 ^ (w - (countl_zero B + 1)) := Nat.pow_add 2 _ _
    _ ≤ A.toNat * B.toNat := Nat.mul_le_mul (Nat.not_lt.mp hA) (Nat.not_lt.mp hB)

theorem umul_ov_spec (hw : 0 < w) (A B : BitVec w) :
    UnsignedResult (umul_ov A B) (A.toNat * B.toNat) := by
  unfold umul_ov
  by_cases hfew : countl_zero A + countl_zero B + 2 ≤ w
  · have hover := two_pow_le_mul hfew
    rw [if_pos hfew]
    exact ⟨iff_of_true rfl hover, fun hfit => absurd hover (Nat.not_le.mpr hfit)⟩
  · rw [if_neg hfew]
    have hhalf : (A >>> 1 * B).toNat = A.toNat / 2 * B.toNat := by
      rw [BitVec.toNat_mul, toNat_shr, Nat.pow_one,
        Nat.mod_eq_of_lt (half_mul_lt (Nat.not_le.mp hfew))]
    have hdouble := toNat_shiftLeft_one (A >>> 1 * B)
    have hmsb := msb_cases (A >>> 1 * B)
    have hpow := two_pow_eq hw
    have hsum := toNat_add_cases ((A >>> 1 * B) <<< 1) B
    have hbit : A.getLsbD 0 = decide (A.toNat % 2 = 1) := by
      rw [← BitVec.testBit_toNat, Nat.testBit_zero]
    have hdouble_cases : (A >>> 1 * B).toNat < 2 ^ (w - 1) ∧
          ((A >>> 1 * B) <<< 1).toNat = 2 * (A >>> 1 * B).toNat ∨
        2 ^ (w - 1) ≤ (A >>> 1 * B).toNat := by
      rcases Nat.lt_or_ge (A >>> 1 * B).toNat (2 ^ (w - 1)) with hlt | hge
      · refine Or.inl ⟨hlt, ?_⟩
        rw [hdouble, Nat.mod_eq_of_lt (by omega)]
      · exact Or.inr hge
    by_cases hodd : A.toNat % 2 = 1
    · have hprod : A.toNat * B.toNat = 2 * (A.toNat / 2 * B.toNat) + B.toNat := by
        rw [← Nat.mul_assoc, ← Nat.succ_mul]
        congr 1
        omega
      rw [hbit, decide_eq_true hodd, if_pos rfl, hprod]
      constructor
      · simp only [BitVec.ult, Bool.or_eq_true, decide_eq_true_iff]
        rcases hmsb with ⟨hm, hlt⟩ | ⟨hm, hge⟩
        · rw [hm, eq_false Bool.false_ne_true, false_or]
          omega
        · exact iff_of_true (Or.inl hm) (by omega)
      · intro hfit
        dsimp only
        omega
    · have hprod : A.toNat * B.toNat = 2 * (A.toNat / 2 * B.toNat) := by
        rw [← Nat.mul_assoc]
        congr 1
        omega
      rw [hbit, decide_eq_false hodd, if_neg Bool.false_ne_true, hprod]
      constructor
      · dsimp only
        rcases hmsb with ⟨hm, hlt⟩ | ⟨hm, hge⟩
        · rw [hm]
          exact iff_of_false Bool.false_ne_true (by omega)
        · exact iff_of_true hm (by omega)
      · intro hfit
        dsimp only
        omega

theorem toNat_umul_sat (hw : 0 < w) (A B : BitVec w) :
    (umul_sat A B).toNat = clampUnsigned w (A.toNat * B.toNat) :=
  (umul_ov_spec hw A B).saturate

theorem ushl_ov_spec (h : ShAmt < w) : UnsignedResult (ushl_ov A ShAmt) (A.toNat * 2 ^ ShAmt) := by
  have hpow : 2 ^ w = 2 ^ (w - ShAmt) * 2 ^ ShAmt := by
    rw [← Nat.pow_add, Nat.sub_add_cancel (Nat.le_of_lt h)]
  have hfits : A.toNat * 2 ^ ShAmt < 2 ^ w ↔ ShAmt ≤ countl_zero A := by
    rw [le_countl_zero_iff (Nat.le_of_lt h), hpow]
    exact Nat.mul_lt_mul_right (Nat.two_pow_pos ShAmt)
  rw [ushl_ov, if_neg (Nat.not_le.mpr h)]
  constructor
  · rw [decide_eq_true_iff, ← Nat.not_lt, hfits, Nat.not_le]
  · intro hfit
    rw [toNat_shl, Nat.mod_eq_of_lt hfit]

theorem toInt_shiftLeft_of_fits (h : ShAmt < w) (hfit : SignedFits w (A.toInt * 2 ^ ShAmt)) :
    (A <<< ShAmt).toInt = A.toInt * 2 ^ ShAmt := by
  apply toInt_eq_of_modEq (Nat.zero_lt_of_lt h) _ hfit.1 hfit.2
  have hcases := toInt_sign_cases A
  have hdiv := Int.mul_ediv_add_emod ((A.toNat * 2 ^ ShAmt : Nat) : Int) (2 ^ w : Nat)
  rw [toNat_shl, Int.natCast_emod]
  rcases hcases with ⟨-, hval⟩ | ⟨-, hval⟩
  · refine ⟨-(((A.toNat * 2 ^ ShAmt : Nat) : Int) / (2 ^ w : Nat)), ?_⟩
    rw [hval]
    push_cast at hdiv ⊢
    linarith
  · refine ⟨2 ^ ShAmt - ((A.toNat * 2 ^ ShAmt : Nat) : Int) / (2 ^ w : Nat), ?_⟩
    rw [hval]
    push_cast at hdiv ⊢
    linarith

theorem sshl_ov_spec (h : ShAmt < w) : SignedResult (sshl_ov A ShAmt) (A.toInt * 2 ^ ShAmt) := by
  have hw : 0 < w := Nat.zero_lt_of_lt h
  have hfst : (sshl_ov A ShAmt).1 = A <<< ShAmt := by
    rw [sshl_ov, if_neg (Nat.not_le.mpr h)]
    split
    · rfl
    · rfl
  refine ⟨?_, fun hfit => hfst ▸ toInt_shiftLeft_of_fits h hfit⟩
  -- The bound `M` of the type, over the factor of the shift.
  obtain ⟨M, hM⟩ : ∃ M : Nat, M = 2 ^ (w - (ShAmt + 1)) := ⟨_, rfl⟩
  have hpred : ((2 : Int) ^ (w - 1)) = M * 2 ^ ShAmt := by
    rw [hM, Nat.cast_pow, Nat.cast_ofNat, ← pow_add]
    congr 1
    omega
  have hpos := int_two_pow_pos ShAmt
  have hfits : SignedFits w (A.toInt * 2 ^ ShAmt) ↔ -(M : Int) ≤ A.toInt ∧ A.toInt < M := by
    rw [SignedFits, hpred, ← Int.neg_mul]
    exact and_congr (Int.mul_le_mul_iff_of_pos_right hpos) (Int.mul_lt_mul_right hpos)
  have hle := le_countl_zero_iff (v := A) (s := ShAmt + 1) (by omega)
  have hle' := le_countl_one_iff (v := A) (s := ShAmt + 1) (by omega)
  have hcases := toInt_sign_cases A
  have hpow := two_pow_eq hw
  rw [hfits, sshl_ov, if_neg (Nat.not_le.mpr h)]
  rcases msb_cases A with ⟨hm, hlt⟩ | ⟨hm, hge⟩
  · rw [hm, Bool.not_false, if_pos rfl, decide_eq_true_iff]
    omega
  · rw [hm, Bool.not_true, if_neg Bool.false_ne_true, decide_eq_true_iff]
    omega

theorem toNat_ushl_sat (h : RHS.toNat < w) :
    (ushl_sat A RHS).toNat = clampUnsigned w (A.toNat * 2 ^ RHS.toNat) := by
  have hlimit : getLimitedValue RHS w = RHS.toNat := by
    rw [getLimitedValue_eq]
    omega
  rw [ushl_sat, hlimit]
  exact (ushl_ov_spec h).saturate

theorem ushl_sat_of_ge (h : w ≤ RHS.toNat) : ushl_sat A RHS = BitVec.allOnes w := by
  have hlimit : getLimitedValue RHS w = w := by
    rw [getLimitedValue_eq]
    omega
  rw [ushl_sat, hlimit, ushl_ov, if_pos (Nat.le_refl w)]
  rfl

theorem toInt_sshl_sat (h : RHS.toNat < w) :
    (sshl_sat A RHS).toInt = clampSigned w (A.toInt * 2 ^ RHS.toNat) := by
  have hlimit : getLimitedValue RHS w = RHS.toNat := by
    rw [getLimitedValue_eq]
    omega
  rw [sshl_sat, hlimit]
  refine (sshl_ov_spec h).saturate (Nat.zero_lt_of_lt h) fun _ => ?_
  have hpos := int_two_pow_pos RHS.toNat
  rw [BitVec.msb_eq_toInt, decide_eq_true_iff, mul_neg_iff]
  omega

theorem sshl_sat_of_ge (h : w ≤ RHS.toNat) : sshl_sat A RHS = signedBound w A.msb := by
  have hlimit : getLimitedValue RHS w = w := by
    rw [getLimitedValue_eq]
    omega
  rw [sshl_sat, hlimit, sshl_ov, if_pos (Nat.le_refl w)]
  rfl

end SmlnjLlvm.APIntOps
