import SmlnjLlvm.IR.IRBuilder
import SmlnjLlvm.Library.RestoringDivision

/-!
# The expansion of integer division

A signed operation becomes an unsigned one on magnitudes, a remainder becomes a
division, and a division becomes a loop that shifts the dividend into the
remainder, one bit a turn. The instruction an expansion leaves is expanded in
its place, unless the builder folded it.
-/

namespace SmlnjLlvm.IR.IntegerDivision

open SmlnjLlvm IRBuilder

variable {w : Nat}

/-- `Instruction::BinaryOps`, those that divide. -/
inductive BinaryOps where
  | UDiv
  | SDiv
  | URem
  | SRem
  deriving DecidableEq, Repr

/-- The phis of the block `udiv-do-while`, and the values of its next turn. -/
structure DoWhile (w : Nat) where
  Carry : Value w
  SR : Value w
  R : Value w
  Q : Value w

def doWhileBlock (Divisor Tmp4 : Value w) (s : DoWhile w) : Exec (Bool × DoWhile w) := do
  let One := getIntN w 1
  let NegOne := getSigned w (-1)
  let Zero := getIntN w 0
  let MSB := getIntN w (w - 1)
  let Carry_1 := phi s.Carry
  let SR_3 := phi s.SR
  let R_1 := phi s.R
  let Q_2 := phi s.Q
  let Tmp5 := CreateShl R_1 One
  let Tmp6 := CreateLShr Q_2 MSB
  let Tmp7 := CreateOr Tmp5 Tmp6
  let Tmp8 := CreateShl Q_2 One
  let Q_1 := CreateOr Carry_1 Tmp8
  let Tmp9 := CreateSub Tmp4 Tmp7
  let Tmp10 := CreateAShr Tmp9 MSB
  let Carry := CreateAnd Tmp10 One
  let Tmp11 := CreateAnd Tmp10 Divisor
  let R := CreateSub Tmp7 Tmp11
  let SR_2 := CreateAdd SR_3 NegOne
  let Tmp12 := CreateICmpEQ SR_2 Zero
  let exit ← CreateCondBr Tmp12
  pure (exit, ⟨Carry, SR_2, R, Q_1⟩)

def runDoWhile (Divisor Tmp4 : Value w) : Nat → DoWhile w → Exec (DoWhile w)
  | 0, _ => Call.stuck
  | fuel + 1, s => do
    let (exit, s') ← doWhileBlock Divisor Tmp4 s
    if exit then pure s' else runDoWhile Divisor Tmp4 fuel s'

def loopExit (Carry Q : Value w) : Value w :=
  let Carry_2 := phi Carry
  let Q_3 := phi Q
  let Tmp13 := CreateShl Q_3 (getIntN w 1)
  CreateOr Carry_2 Tmp13

/-- The blocks `udiv-bb1` and `udiv-preheader`, up to the value that the loop's exit leaves. -/
def bb1 (fuel : Nat) (Dividend Divisor SR : Value w) : Exec (Value w) := do
  let Zero := getIntN w 0
  let SR_1 := CreateAdd SR (getIntN w 1)
  let Tmp2 := CreateSub (getIntN w (w - 1)) SR
  let Q := CreateShl Dividend Tmp2
  let SkipLoop := CreateICmpEQ SR_1 Zero
  if ← CreateCondBr SkipLoop then
    pure (loopExit Zero Q)
  else
    let Tmp3 := CreateLShr Dividend SR_1
    let Tmp4 := CreateAdd Divisor (getSigned w (-1))
    let s ← runDoWhile Divisor Tmp4 fuel ⟨Zero, SR_1, Tmp3, Q⟩
    pure (loopExit s.Carry s.Q)

def generateUnsignedDivisionCode (fuel : Nat) (Dividend Divisor : Value w) : Exec (Value w) := do
  let Zero := getIntN w 0
  let MSB := getIntN w (w - 1)
  let Divisor ← CreateFreeze Divisor
  let Dividend ← CreateFreeze Dividend
  let Ret0_1 := CreateICmpEQ Divisor Zero
  let Ret0_2 := CreateICmpEQ Dividend Zero
  let Ret0_3 := CreateOr Ret0_1 Ret0_2
  let Tmp0 := CreateCTLZ Divisor
  let Tmp1 := CreateCTLZ Dividend
  let SR := CreateSub Tmp0 Tmp1
  let Ret0_4 := CreateICmpUGT SR MSB
  let Ret0 := CreateLogicalOr Ret0_3 Ret0_4
  let RetDividend := CreateICmpEQ SR MSB
  let RetVal := CreateSelect Ret0 Zero Dividend
  let EarlyRet := CreateLogicalOr Ret0 RetDividend
  if ← CreateCondBr EarlyRet then
    pure (phi RetVal)
  else
    let Q_4 ← bb1 fuel Dividend Divisor SR
    pure (phi Q_4)

/-- A division the builder emits: folded when both operands are constants, and otherwise an
instruction that `expand` replaces. -/
def inPlace (fold : BitVec w → BitVec w → BitVec w) (expand : Value w → Value w → Exec (Value w))
    (LHS RHS : Value w) : Exec (Value w) :=
  if LHS.isConstant && RHS.isConstant then
    pure (binary (fun x y => if y = 0 then none else some (fold x y)) LHS RHS)
  else
    expand LHS RHS

def generateSignedRemainderCode (expandURem : Value w → Value w → Exec (Value w))
    (Dividend Divisor : Value w) : Exec (Value w) := do
  let Shift := getIntN w (w - 1)
  let Dividend ← CreateFreeze Dividend
  let Divisor ← CreateFreeze Divisor
  let DividendSign := CreateAShr Dividend Shift
  let DivisorSign := CreateAShr Divisor Shift
  let DvdXor := CreateXor Dividend DividendSign
  let DvsXor := CreateXor Divisor DivisorSign
  let UDividend := CreateSub DvdXor DividendSign
  let UDivisor := CreateSub DvsXor DivisorSign
  let URem ← inPlace BitVec.umod expandURem UDividend UDivisor
  let Xored := CreateXor URem DividendSign
  pure (CreateSub Xored DividendSign)

def generatedUnsignedRemainderCode (expandUDiv : Value w → Value w → Exec (Value w))
    (Dividend Divisor : Value w) : Exec (Value w) := do
  let Dividend ← CreateFreeze Dividend
  let Divisor ← CreateFreeze Divisor
  let Quotient ← inPlace BitVec.udiv expandUDiv Dividend Divisor
  let Product := CreateMul Divisor Quotient
  pure (CreateSub Dividend Product)

def generateSignedDivisionCode (expandUDiv : Value w → Value w → Exec (Value w))
    (Dividend Divisor : Value w) : Exec (Value w) := do
  let Shift := getIntN w (w - 1)
  let Dividend ← CreateFreeze Dividend
  let Divisor ← CreateFreeze Divisor
  let Tmp := CreateAShr Dividend Shift
  let Tmp1 := CreateAShr Divisor Shift
  let Tmp2 := CreateXor Tmp Dividend
  let U_Dvnd := CreateSub Tmp2 Tmp
  let Tmp3 := CreateXor Tmp1 Divisor
  let U_Dvsr := CreateSub Tmp3 Tmp1
  let Q_Sgn := CreateXor Tmp1 Tmp
  let Q_Mag ← inPlace BitVec.udiv expandUDiv U_Dvnd U_Dvsr
  let Tmp4 := CreateXor Q_Mag Q_Sgn
  pure (CreateSub Tmp4 Q_Sgn)

def expandDivision (fuel : Nat) (Opcode : BinaryOps) (Dividend Divisor : Value w) :
    Exec (Value w) := do
  Call.assert (Opcode = .SDiv ∨ Opcode = .UDiv)
  if Opcode = .SDiv then
    generateSignedDivisionCode (generateUnsignedDivisionCode fuel) Dividend Divisor
  else
    generateUnsignedDivisionCode fuel Dividend Divisor

def expandRemainder (fuel : Nat) (Opcode : BinaryOps) (Dividend Divisor : Value w) :
    Exec (Value w) := do
  Call.assert (Opcode = .SRem ∨ Opcode = .URem)
  let expandURem := generatedUnsignedRemainderCode (expandDivision (w := w) fuel .UDiv)
  if Opcode = .SRem then
    generateSignedRemainderCode expandURem Dividend Divisor
  else
    expandURem Dividend Divisor

/-- The operation at `u` bits on extended operands, expanded in its place, with its result
truncated. The builder folds it on constants, and then there is no instruction to expand. -/
def expandExtended (u : Nat) (isSigned : Bool) (expand : Value u → Value u → Exec (Value u))
    (LHS RHS : Value w) : Exec (Value w) := do
  let ExtLHS := if isSigned then CreateSExt LHS u else CreateZExt LHS u
  let ExtRHS := if isSigned then CreateSExt RHS u else CreateZExt RHS u
  -- `cast<BinaryOperator>` of the operation at `u` bits
  Call.assert (¬(ExtLHS.isConstant && ExtRHS.isConstant))
  let Ext ← expand ExtLHS ExtRHS
  pure (CreateTrunc Ext w)

def expandRemainderUpTo32Bits (fuel : Nat) (Opcode : BinaryOps) (Dividend Divisor : Value w) :
    Exec (Value w) := do
  Call.assert (Opcode = .SRem ∨ Opcode = .URem)
  Call.assert (w ≤ 32)
  if w = 32 then
    expandRemainder fuel Opcode Dividend Divisor
  else
    expandExtended 32 (Opcode = .SRem) (expandRemainder fuel Opcode) Dividend Divisor

def expandRemainderUpTo64Bits (fuel : Nat) (Opcode : BinaryOps) (Dividend Divisor : Value w) :
    Exec (Value w) := do
  Call.assert (Opcode = .SRem ∨ Opcode = .URem)
  if 64 ≤ w then
    expandRemainder fuel Opcode Dividend Divisor
  else
    expandExtended 64 (Opcode = .SRem) (expandRemainder fuel Opcode) Dividend Divisor

def expandDivisionUpTo32Bits (fuel : Nat) (Opcode : BinaryOps) (Dividend Divisor : Value w) :
    Exec (Value w) := do
  Call.assert (Opcode = .SDiv ∨ Opcode = .UDiv)
  Call.assert (w ≤ 32)
  if w = 32 then
    expandDivision fuel Opcode Dividend Divisor
  else
    expandExtended 32 (Opcode = .SDiv) (expandDivision fuel Opcode) Dividend Divisor

def expandDivisionUpTo64Bits (fuel : Nat) (Opcode : BinaryOps) (Dividend Divisor : Value w) :
    Exec (Value w) := do
  Call.assert (Opcode = .SDiv ∨ Opcode = .UDiv)
  if 64 ≤ w then
    expandDivision fuel Opcode Dividend Divisor
  else
    expandExtended 64 (Opcode = .SDiv) (expandDivision fuel Opcode) Dividend Divisor

end SmlnjLlvm.IR.IntegerDivision

/-!
## The unsigned division loop

The registers of the loop are a division in progress. The sign of the wrapped
difference is the comparison with the divisor, since a divisor with its top bit
set is met only once, by a dividend with its top bit set.
-/

namespace SmlnjLlvm.IR.IntegerDivision

open SmlnjLlvm IRBuilder Words RestoringDivision

variable {w : Nat}

/-! ## One turn -/

theorem toNat_getIntN (hw : 0 < w) : (BitVec.ofNat w (w - 1)).toNat = w - 1 := by
  have hself : w < 2 ^ w := Nat.lt_two_pow_self
  rw [BitVec.toNat_ofNat, Nat.mod_eq_of_lt (by omega)]

theorem add_neg_one (x : BitVec w) : x + BitVec.ofInt w (-1) = x - 1 := by
  rw [BitVec.sub_eq_add_neg, BitVec.ofInt_neg]
  rfl

theorem msb_difference {d t : BitVec w} (hw : 0 < w) (hd : 0 < d.toNat)
    (hroom : d.toNat ≤ 2 ^ (w - 1) ∧ t.toNat < 2 * d.toNat ∨
      2 ^ (w - 1) ≤ d.toNat ∧ 2 ^ (w - 1) ≤ t.toNat) :
    (d - 1 - t).msb = decide (d.toNat ≤ t.toNat) := by
  have hone : (1 : BitVec w).toNat = 1 := toNat_one hw
  have hpred : (d - 1).toNat = d.toNat - 1 := by
    rw [toNat_sub_of_le (by omega), hone]
  have htwo := two_pow_eq hw
  rw [BitVec.msb_eq_decide, decide_eq_decide]
  by_cases hle : d.toNat ≤ t.toNat
  · have hback : (t - (d - 1)).toNat = t.toNat - (d.toNat - 1) := by
      rw [toNat_sub_of_le (by omega), hpred]
    have hneg : (d - 1 - t).toNat = 2 ^ w - (t.toNat - (d.toNat - 1)) := by
      rw [show d - 1 - t = -(t - (d - 1)) by rw [BitVec.neg_sub, BitVec.add_comm,
        ← BitVec.sub_eq_add_neg], BitVec.toNat_neg, hback, Nat.mod_eq_of_lt (by omega)]
    simp only [hneg, hle, iff_true]
    omega
  · have hsub : (d - 1 - t).toNat = d.toNat - 1 - t.toNat := by
      rw [toNat_sub_of_le (by omega), hpred]
    simp only [hsub, hle, iff_false]
    omega

namespace DoWhile

/-- The words in the loop's registers. -/
structure Is (s : DoWhile w) (c n r q : BitVec w) : Prop where
  carry : s.Carry.Is c
  sr : s.SR.Is n
  r : s.R.Is r
  q : s.Q.Is q

end DoWhile

theorem doWhileBlock_run {Divisor Tmp4 : Value w} {s : DoWhile w} {d c n r q : BitVec w}
    (hw : 2 ≤ w) (hd : Divisor.Is d) (hd' : Tmp4.Is (d - 1)) (h : s.Is c n r q) :
    let t := r <<< 1 ||| q >>> (w - 1)
    let sign := (d - 1 - t).sshiftRight (w - 1)
    ∃ s' : DoWhile w, doWhileBlock Divisor Tmp4 s = pure (n - 1 == 0, s') ∧
      s'.Is (sign &&& 1) (n - 1) (t - (sign &&& d)) (c ||| q <<< 1) := by
  intro t sign
  have hone : (BitVec.ofNat w 1).toNat = 1 := toNat_one (by omega)
  have hlast : (BitVec.ofNat w (w - 1)).toNat = w - 1 := toNat_getIntN (by omega)
  have hshl : ∀ {V : Value w} {x : BitVec w}, V.Is x →
      (CreateShl V (getIntN w 1)).Is (x <<< 1) := by
    intro V x hV
    have hrun := is_shl hV (is_getIntN w 1) (by omega)
    rwa [hone] at hrun
  have hTmp6 : (CreateLShr (phi s.Q) (getIntN w (w - 1))).Is (q >>> (w - 1)) := by
    have hrun := is_lshr (is_phi h.q) (is_getIntN w (w - 1)) (by omega)
    rwa [hlast] at hrun
  have hTmp7 := is_or (hshl (is_phi h.r)) hTmp6
  have hTmp10 := is_ashr (is_sub hd' hTmp7) (is_getIntN w (w - 1)) (by omega)
  rw [hlast] at hTmp10
  have hSR := is_add (is_phi h.sr) (is_getSigned w (-1))
  rw [add_neg_one] at hSR
  refine ⟨_, congrArg (· >>= fun exit => pure (exit, _)) (condBr_of_is
    (is_icmpEQ hSR (is_getIntN w 0))), ?_⟩
  exact ⟨is_and hTmp10 (is_getIntN w 1), hSR, is_sub hTmp7 (is_and hTmp10 hd),
    is_or (is_phi h.carry) (hshl (is_phi h.q))⟩

/-- The loop's invariant: a division in progress that has bits left, and room for the next
remainder. -/
structure Inv (N : Nat) (d c n r q : BitVec w) : Prop where
  pos : 0 < n.toNat
  lt : n.toNat < w
  partial_ : Partial w N d.toNat n.toNat r.toNat q.toNat c.toNat
  room : d.toNat ≤ 2 ^ (w - 1) ∨ n.toNat = 1 ∧ 2 ^ (w - 1) ≤ 2 * r.toNat

theorem Inv.turn {N : Nat} {d c n r q : BitVec w} (h : Inv N d c n r q) (hN : N < 2 ^ w)
    (hd : 0 < d.toNat) :
    let t := r <<< 1 ||| q >>> (w - 1)
    let sign := (d - 1 - t).sshiftRight (w - 1)
    Partial w N d.toNat (n - 1).toNat (t - (sign &&& d)).toNat (c ||| q <<< 1).toNat
      (sign &&& 1).toNat := by
  intro t sign
  have hw : 0 < w := Nat.lt_of_le_of_lt (Nat.zero_le _) h.lt
  have htwo := two_pow_eq hw
  have hone : (1 : BitVec w).toNat = 1 := toNat_one hw
  have hpos := h.pos
  have hlt := h.lt
  have hn : (n - 1).toNat + 1 = n.toNat := by
    rw [toNat_sub_of_le (by omega), hone]
    omega
  have hrem := h.partial_.rem_lt hd
  have hbit : (q >>> (w - 1)).toNat = q.toNat / 2 ^ (w - 1) := by
    rw [toNat_shr]
  have hbit_le : (q >>> (w - 1)).toNat ≤ 1 := by
    have hq := q.isLt
    rw [hbit]
    exact Nat.le_of_lt_succ (Nat.div_lt_of_lt_mul (by omega))
  -- a remainder of the first bits of the dividend is short
  have hshort : r.toNat < 2 ^ (w - 1) := by
    obtain hle | hlong := h.room
    · omega
    · rw [h.partial_.rem, hlong.1, Nat.pow_one]
      exact Nat.mod_lt_of_lt (by omega)
  have ht : t.toNat = 2 * r.toNat + (q >>> (w - 1)).toNat := by
    rw [toNat_shiftLeft_one_or hw hbit_le, Nat.mod_eq_of_lt (by omega)]
  have hmsb : (d - 1 - t).msb = decide (d.toNat ≤ t.toNat) := by
    apply msb_difference hw hd
    by_cases hle : d.toNat ≤ 2 ^ (w - 1)
    · left
      omega
    · have hlong := h.room.resolve_left hle
      right
      omega
  have hsign : sign = if d.toNat ≤ t.toNat then BitVec.allOnes w else 0 := by
    rw [show sign = _ from sshiftRight_pred hw _, hmsb]
    by_cases hle : d.toNat ≤ t.toNat <;> simp [hle]
  have hcarry : (sign &&& 1).toNat = if d.toNat ≤ t.toNat then 1 else 0 := by
    rw [hsign]
    split
    · rw [BitVec.allOnes_and, hone]
    · rw [show (0 : BitVec w) &&& 1 = 0 from BitVec.zero_and]
      rfl
  have hr : (t - (sign &&& d)).toNat = t.toNat - if d.toNat ≤ t.toNat then d.toNat else 0 := by
    rw [hsign]
    split
    · next hle => rw [BitVec.allOnes_and, toNat_sub_of_le hle]
    · rw [show (0 : BitVec w) &&& d = 0 from BitVec.zero_and, Nat.sub_zero]
      exact congrArg BitVec.toNat (BitVec.sub_zero t)
  have hq : (c ||| q <<< 1).toNat = (2 * q.toNat + c.toNat) % 2 ^ w := by
    rw [BitVec.or_comm, toNat_shiftLeft_one_or hw h.partial_.carry]
  have hpartial := h.partial_
  rw [← hn] at hpartial
  rw [hcarry, hr, hq, ht]
  exact hpartial.turn hN hd (by omega) hbit

theorem runDoWhile_run {Divisor Tmp4 : Value w} {s : DoWhile w} {N fuel : Nat}
    {d c n r q : BitVec w} (hdiv : Divisor.Is d) (hpred : Tmp4.Is (d - 1)) (hd : 0 < d.toNat)
    (hN : N < 2 ^ w) (hs : s.Is c n r q) (hinv : Inv N d c n r q) (hfuel : n.toNat ≤ fuel) :
    ∃ (s' : DoWhile w) (c' q' : BitVec w), runDoWhile Divisor Tmp4 fuel s = pure s' ∧
      s'.Carry.Is c' ∧ s'.Q.Is q' ∧ c'.toNat ≤ 1 ∧ 2 * q'.toNat + c'.toNat = N / d.toNat := by
  induction fuel generalizing s c n r q with
  | zero =>
    have hpos := hinv.pos
    omega
  | succ fuel ih =>
    have hpos := hinv.pos
    have hlt := hinv.lt
    obtain ⟨s', hblock, hs'⟩ := doWhileBlock_run (by omega) hdiv hpred hs
    have hturn := hinv.turn hN hd
    have hone : (1 : BitVec w).toNat = 1 := toNat_one (by omega)
    have hn : (n - 1).toNat = n.toNat - 1 := by rw [toNat_sub_of_le (by omega), hone]
    rw [runDoWhile, hblock, pure_bind]
    by_cases hexit : n - 1 = 0
    · have hzero : (n - 1).toNat = 0 := by
        rw [hexit]
        rfl
      rw [hzero] at hturn
      simp only [hexit, beq_self_eq_true, if_true]
      exact ⟨s', _, _, rfl, hs'.carry, hs'.q, hturn.carry, hturn.finish⟩
    · have hmore : (n - 1).toNat ≠ 0 := by
        intro hzero
        exact hexit (BitVec.eq_of_toNat_eq hzero)
      simp only [beq_eq_false_iff_ne.mpr hexit, Bool.false_eq_true, if_false]
      refine ih hs' ⟨by omega, by omega, hturn, ?_⟩ (by omega)
      obtain hle | hlong := hinv.room
      · exact .inl hle
      · omega

theorem loopExit_is {Carry Q : Value w} {c q : BitVec w} {N : Nat} (hw : 2 ≤ w) (hc : Carry.Is c)
    (hq : Q.Is q) (hbit : c.toNat ≤ 1) (hN : 2 * q.toNat + c.toNat = N) (hlt : N < 2 ^ w) :
    ∃ x : BitVec w, (loopExit Carry Q).Is x ∧ x.toNat = N := by
  have hone : (BitVec.ofNat w 1).toNat = 1 := toNat_one (by omega)
  have hshl := is_shl (is_phi hq) (is_getIntN w 1) (by omega)
  rw [hone] at hshl
  refine ⟨_, is_or (is_phi hc) hshl, ?_⟩
  rw [BitVec.or_comm, toNat_shiftLeft_one_or (by omega) hbit, hN, Nat.mod_eq_of_lt hlt]

end SmlnjLlvm.IR.IntegerDivision
