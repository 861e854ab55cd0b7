import SmlnjLlvm.IR.IntegerDivision

/-!
# What expanded divisions compute

The special cases leave the loop a dividend that is at least as long as the
divisor. Signed operations are correct because the magnitudes and the final
negation are exact, and the narrow forms because every operand fits the wider
type.
-/

namespace SmlnjLlvm.IR.IntegerDivision

open SmlnjLlvm IRBuilder Words RestoringDivision Support

variable {w : Nat}

/-! ## The special cases -/

variable {LHS RHS : Value w} {a b x : BitVec w} {u : Nat}

theorem toNat_bounds (hx : x ≠ 0) :
    2 ^ (w - 1 - countl_zero x) ≤ x.toNat ∧ x.toNat < 2 ^ (w - countl_zero x) := by
  have hlt := countl_zero_lt hx
  exact ⟨BitVec.two_pow_sub_clz_le_toNat_of_ne_zero (by omega) hx, BitVec.toNat_lt_two_pow_sub_clz⟩

theorem toNat_ofNat_countl_zero (x : BitVec w) :
    (BitVec.ofNat w (countl_zero x)).toNat = countl_zero x := by
  have hle := countl_zero_le x
  have hself : w < 2 ^ w := Nat.lt_two_pow_self
  rw [BitVec.toNat_ofNat, Nat.mod_eq_of_lt (by omega)]

theorem toNat_pos (hx : x ≠ 0) : 0 < x.toNat := by
  apply Nat.pos_of_ne_zero
  intro hzero
  exact hx (BitVec.eq_of_toNat_eq hzero)

theorem Inv.start {sr : BitVec w} (ha : a ≠ 0) (hb : b ≠ 0)
    (hsr : sr.toNat = countl_zero b - countl_zero a) (hle : countl_zero a ≤ countl_zero b)
    (hroom : sr.toNat + 1 < w) :
    Inv a.toNat b 0 (sr + 1) (a >>> (sr.toNat + 1)) (a <<< (w - 1 - sr.toNat)) := by
  have hone : (1 : BitVec w).toNat = 1 := toNat_one (by omega)
  have hself : w < 2 ^ w := Nat.lt_two_pow_self
  have hn : (sr + 1).toNat = sr.toNat + 1 := by
    rw [toNat_add_of_lt (by omega), hone]
  have hba := toNat_bounds ha
  have hbb := toNat_bounds hb
  have hshort : a.toNat / 2 ^ (sr.toNat + 1) < 2 ^ (w - 1 - countl_zero b) := by
    rw [Nat.div_lt_iff_lt_mul (Nat.two_pow_pos _), ← Nat.pow_add]
    exact Nat.lt_of_lt_of_le hba.2 (Nat.pow_le_pow_right (by decide) (by omega))
  have hr : (a >>> (sr.toNat + 1)).toNat = a.toNat / 2 ^ (sr.toNat + 1) := by
    rw [toNat_shr]
  have hq : (a <<< (w - 1 - sr.toNat)).toNat =
      a.toNat % 2 ^ (sr.toNat + 1) * 2 ^ (w - (sr.toNat + 1)) := by
    have hsplit : 2 ^ w = 2 ^ (sr.toNat + 1) * 2 ^ (w - (sr.toNat + 1)) := by
      rw [← Nat.pow_add, Nat.add_sub_cancel' (by omega)]
    rw [toNat_shl, hsplit,
      show w - 1 - sr.toNat = w - (sr.toNat + 1) by omega, Nat.mul_mod_mul_right]
  constructor
  · omega
  · omega
  · rw [hn, hr, hq]
    exact Partial.start (Nat.lt_of_lt_of_le hshort hbb.1)
  · rw [hn, hr]
    by_cases hlong : countl_zero b = 0
    · -- both operands have their top bit set
      right
      rw [hlong] at hsr hle
      rw [Nat.le_zero.mp hle, Nat.sub_zero] at hba
      have hzero : sr.toNat = 0 := by omega
      have htwo := two_pow_eq (w := w - 1) (by omega)
      rw [hzero, Nat.zero_add, Nat.pow_one]
      omega
    · left
      exact Nat.le_of_lt (Nat.lt_of_lt_of_le hbb.2 (Nat.pow_le_pow_right (by decide) (by omega)))

theorem bb1_run {Dividend Divisor SR : Value w} {sr : BitVec w} {fuel : Nat}
    (hDividend : Dividend.Is a) (hDivisor : Divisor.Is b) (hSR : SR.Is sr) (ha : a ≠ 0)
    (hb : b ≠ 0) (hsr : sr.toNat = countl_zero b - countl_zero a)
    (hle : countl_zero a ≤ countl_zero b) (hroom : sr.toNat + 1 < w) (hfuel : w ≤ fuel) :
    ∃ v, bb1 fuel Dividend Divisor SR = pure v ∧ v.Is (a / b) := by
  have hw : 0 < w := by omega
  have hone : (1 : BitVec w).toNat = 1 := toNat_one hw
  have hself : w < 2 ^ w := Nat.lt_two_pow_self
  have hn : (sr + 1).toNat = sr.toNat + 1 := by
    rw [toNat_add_of_lt (by omega), hone]
  have hSR_1 := is_add hSR (is_getIntN w 1)
  have hTmp2 := is_sub (is_getIntN w (w - 1)) hSR
  have hamount : (BitVec.ofNat w (w - 1) - sr).toNat = w - 1 - sr.toNat := by
    have hlast := toNat_getIntN hw
    rw [toNat_sub_of_le (by omega), hlast]
  have hQ := is_shl hDividend hTmp2 (by omega)
  rw [hamount] at hQ
  have hSkip := condBr_of_is (is_icmpEQ hSR_1 (is_getIntN w 0))
  have hne : (sr + BitVec.ofNat w 1 == BitVec.ofNat w 0) = false := by
    rw [beq_eq_false_iff_ne]
    intro heq
    have hcong := congrArg BitVec.toNat heq
    rw [show sr + BitVec.ofNat w 1 = sr + 1 from rfl, hn, BitVec.toNat_zero] at hcong
    omega
  rw [hne] at hSkip
  have hTmp3 := is_lshr hDividend hSR_1 (by
    rw [show sr + BitVec.ofNat w 1 = sr + 1 from rfl, hn]
    exact hroom)
  rw [show (sr + BitVec.ofNat w 1).toNat = sr.toNat + 1 from hn] at hTmp3
  have hTmp4 := is_add hDivisor (is_getSigned w (-1))
  rw [add_neg_one] at hTmp4
  have hstart : (DoWhile.mk (getIntN w 0) (CreateAdd SR (getIntN w 1))
      (CreateLShr Dividend (CreateAdd SR (getIntN w 1)))
      (CreateShl Dividend (CreateSub (getIntN w (w - 1)) SR))).Is 0 (sr + 1)
      (a >>> (sr.toNat + 1)) (a <<< (w - 1 - sr.toNat)) :=
    ⟨is_getIntN w 0, hSR_1, hTmp3, hQ⟩
  obtain ⟨s', c', q', hloop, hc, hq, hbit, hquot⟩ :=
    runDoWhile_run hDivisor hTmp4 (toNat_pos hb) a.isLt hstart (Inv.start ha hb hsr hle hroom)
      (by omega : (sr + 1).toNat ≤ fuel)
  obtain ⟨x, hx, hval⟩ := loopExit_is (by omega) hc hq hbit hquot
    (Nat.div_lt_of_lt a.isLt)
  refine ⟨loopExit s'.Carry s'.Q, ?_, ?_⟩
  · simp only [bb1, hSkip, pure_bind, Bool.false_eq_true, if_false, hloop]
  · rw [show a / b = x from BitVec.eq_of_toNat_eq (by rw [hval, BitVec.toNat_udiv])]
    exact hx

theorem generateUnsignedDivisionCode_run {Dividend Divisor : Value w} {fuel : Nat}
    (hDividend : Dividend.Is a) (hDivisor : Divisor.Is b) (hb : b ≠ 0) (hfuel : w ≤ fuel) :
    ∃ v, generateUnsignedDivisionCode fuel Dividend Divisor = pure v ∧ v.Is (a / b) := by
  have hlt := countl_zero_lt hb
  have hw : 0 < w := by omega
  have hlast := toNat_getIntN hw
  have hA : Value.Is (w := w) ⟨false, some a⟩ a := rfl
  have hB : Value.Is (w := w) ⟨false, some b⟩ b := rfl
  let A : Value w := ⟨false, some a⟩
  let B : Value w := ⟨false, some b⟩
  let SR := CreateSub (CreateCTLZ B) (CreateCTLZ A)
  let Ret0 := CreateLogicalOr
    (CreateOr (CreateICmpEQ B (getIntN w 0)) (CreateICmpEQ A (getIntN w 0)))
    (CreateICmpUGT SR (getIntN w (w - 1)))
  let EarlyRet := CreateLogicalOr Ret0 (CreateICmpEQ SR (getIntN w (w - 1)))
  have hrun : generateUnsignedDivisionCode fuel Dividend Divisor = (do
      if ← CreateCondBr EarlyRet then
        pure (phi (CreateSelect Ret0 (getIntN w 0) A))
      else
        let Q_4 ← bb1 fuel A B SR
        pure (phi Q_4)) := by
    simp only [generateUnsignedDivisionCode, freeze_of_is hDividend, freeze_of_is hDivisor,
      pure_bind]
    rfl
  have hRet0_3 := is_or_bool (is_icmpEQ hB (is_getIntN w 0)) (is_icmpEQ hA (is_getIntN w 0))
  rw [show (b == BitVec.ofNat w 0) = false from beq_eq_false_iff_ne.mpr hb, Bool.false_or]
    at hRet0_3
  by_cases ha : a = 0
  · -- the counts may be poison, and nothing depends on them
    rw [show (a == BitVec.ofNat w 0) = true from beq_iff_eq.mpr ha] at hRet0_3
    have hRet0 : Ret0.Is (BitVec.ofBool true) := is_logicalOr_true hRet0_3
    have hEarly : EarlyRet.Is (BitVec.ofBool true) := is_logicalOr_true hRet0
    rw [hrun, condBr_of_is hEarly, pure_bind, if_pos rfl]
    refine ⟨_, rfl, ?_⟩
    rw [ha, show (0 : BitVec w) / b = 0 from BitVec.zero_udiv]
    exact is_phi (is_select_true hRet0 (is_getIntN w 0))
  · rw [show (a == BitVec.ofNat w 0) = false from beq_eq_false_iff_ne.mpr ha] at hRet0_3
    have hSR : SR.Is _ := is_sub (is_ctlz hB hb) (is_ctlz hA ha)
    generalize hsr : BitVec.ofNat w (countl_zero b) - BitVec.ofNat w (countl_zero a) = sr at hSR
    have hRet0 : Ret0.Is _ := is_logicalOr_false hRet0_3
      (is_icmpUGT hSR (is_getIntN w (w - 1)))
    have hRetDividend := is_icmpEQ hSR (is_getIntN w (w - 1))
    have hlta := countl_zero_lt ha
    have hba := toNat_bounds ha
    have hbb := toNat_bounds hb
    by_cases hle : countl_zero a ≤ countl_zero b
    · have hval : sr.toNat = countl_zero b - countl_zero a := by
        rw [← hsr, toNat_sub_of_le (by simpa only [toNat_ofNat_countl_zero] using hle),
          toNat_ofNat_countl_zero, toNat_ofNat_countl_zero]
      rw [show (BitVec.ofNat w (w - 1)).ult sr = false by
        rw [BitVec.ult, hlast, decide_eq_false_iff_not]
        omega] at hRet0
      have hEarly : EarlyRet.Is _ := is_logicalOr_false hRet0 hRetDividend
      by_cases htop : sr.toNat = w - 1
      · -- the divisor is one
        rw [show (sr == BitVec.ofNat w (w - 1)) = true from
          beq_iff_eq.mpr (BitVec.eq_of_toNat_eq (htop.trans hlast.symm))] at hEarly
        rw [hrun, condBr_of_is hEarly, pure_bind, if_pos rfl]
        refine ⟨_, rfl, ?_⟩
        have hone : b.toNat = 1 := by
          rw [show w - countl_zero b = 1 by omega] at hbb
          have hpos := toNat_pos hb
          omega
        rw [show a / b = a from BitVec.eq_of_toNat_eq (by
          rw [BitVec.toNat_udiv, hone, Nat.div_one])]
        exact is_phi (is_select_false hRet0 hA)
      · rw [show (sr == BitVec.ofNat w (w - 1)) = false by
          rw [beq_eq_false_iff_ne]
          intro heq
          rw [heq, hlast] at htop
          exact htop rfl] at hEarly
        obtain ⟨v, hbb1, hv⟩ := bb1_run hA hB hSR ha hb hval hle (by omega) hfuel
        rw [hrun, condBr_of_is hEarly, pure_bind, if_neg Bool.false_ne_true]
        refine ⟨phi v, ?_, is_phi hv⟩
        rw [show bb1 fuel A B SR = pure v from hbb1, pure_bind]
    · -- the divisor is longer than the dividend
      have hwrap : (BitVec.ofNat w (w - 1)).ult sr = true := by
        have hhalf : w - 1 < 2 ^ (w - 1) := Nat.lt_two_pow_self
        have htwo := two_pow_eq hw
        rw [BitVec.ult, hlast, decide_eq_true_eq, ← hsr, BitVec.toNat_sub,
          toNat_ofNat_countl_zero, toNat_ofNat_countl_zero, Nat.mod_eq_of_lt (by omega)]
        omega
      rw [hwrap] at hRet0
      have hEarly : EarlyRet.Is (BitVec.ofBool true) := is_logicalOr_true hRet0
      rw [hrun, condBr_of_is hEarly, pure_bind, if_pos rfl]
      refine ⟨_, rfl, ?_⟩
      have hsmall : a.toNat < b.toNat :=
        calc a.toNat < 2 ^ (w - countl_zero a) := hba.2
          _ ≤ 2 ^ (w - 1 - countl_zero b) := Nat.pow_le_pow_right (by decide) (by omega)
          _ ≤ b.toNat := hbb.1
      rw [show a / b = 0 from BitVec.eq_of_toNat_eq (by
        rw [BitVec.toNat_udiv, Nat.div_eq_of_lt hsmall]
        rfl)]
      exact is_phi (is_select_true hRet0 (is_getIntN w 0))

theorem inPlace_of_instruction {fold : BitVec w → BitVec w → BitVec w}
    {expand : Value w → Value w → Exec (Value w)} (h : LHS.isConstant = false) :
    inPlace fold expand LHS RHS = expand LHS RHS := by
  unfold inPlace
  rw [h, Bool.false_and, if_neg Bool.false_ne_true]

/-- The code of an expansion computes `op` of its operands, for divisors other than zero. -/
def Computes (expand : Value w → Value w → Exec (Value w))
    (op : BitVec w → BitVec w → BitVec w) : Prop :=
  ∀ (Dividend Divisor : Value w) (a b : BitVec w), Dividend.Is a → Divisor.Is b → b ≠ 0 →
    ∃ v, expand Dividend Divisor = pure v ∧ v.Is (op a b)

theorem generateUnsignedDivisionCode_computes {fuel : Nat} (hfuel : w ≤ fuel) :
    Computes (w := w) (generateUnsignedDivisionCode fuel) BitVec.udiv :=
  fun _ _ _ _ ha hb hne => generateUnsignedDivisionCode_run ha hb hne hfuel

theorem generatedUnsignedRemainderCode_computes {expandUDiv : Value w → Value w → Exec (Value w)}
    (h : Computes expandUDiv BitVec.udiv) :
    Computes (generatedUnsignedRemainderCode expandUDiv) BitVec.umod := by
  intro Dividend Divisor a b ha hb hne
  have hA : Value.Is (w := w) ⟨false, some a⟩ a := rfl
  have hB : Value.Is (w := w) ⟨false, some b⟩ b := rfl
  obtain ⟨v, hrun, hv⟩ := h _ _ _ _ hA hB hne
  refine ⟨CreateSub ⟨false, some a⟩ (CreateMul ⟨false, some b⟩ v), ?_, ?_⟩
  · simp only [generatedUnsignedRemainderCode, freeze_of_is ha, freeze_of_is hb, pure_bind,
      inPlace_of_instruction, hrun]
  · have hprod : (b * a.udiv b).toNat = b.toNat * (a.toNat / b.toNat) := by
      rw [BitVec.toNat_mul, BitVec.udiv_eq, BitVec.toNat_udiv,
        Nat.mod_eq_of_lt (Nat.lt_of_le_of_lt (Nat.mul_div_le _ _) a.isLt)]
    have hdiv := Nat.div_add_mod a.toNat b.toNat
    rw [show a.umod b = a - b * a.udiv b from BitVec.eq_of_toNat_eq (by
      rw [BitVec.umod_eq, BitVec.toNat_umod, toNat_sub_of_le (by omega), hprod]
      omega)]
    exact is_sub hA (is_mul hB hv)

theorem xor_sub_sign (x : BitVec w) (c : Bool) :
    (x ^^^ if c then BitVec.allOnes w else 0) - (if c then BitVec.allOnes w else 0) =
      if c then -x else x := by
  cases c with
  | false => simp
  | true =>
    simp only [if_true]
    rw [BitVec.xor_allOnes, ← BitVec.neg_one_eq_allOnes, BitVec.sub_eq_add_neg, BitVec.neg_neg,
      ← BitVec.neg_eq_not_add]

theorem xor_signs (c d : Bool) :
    ((if d then BitVec.allOnes w else 0) ^^^ if c then BitVec.allOnes w else 0) =
      if c ^^ d then BitVec.allOnes w else 0 := by
  cases c <;> cases d <;> simp

theorem pos_of_ne_zero (hx : x ≠ 0) : 0 < w := BitVec.length_pos_of_ne hx

theorem sign_is {V : Value w} (hw : 0 < w) (h : V.Is x) :
    (CreateAShr V (getIntN w (w - 1))).Is (if x.msb then BitVec.allOnes w else 0) := by
  have hlast := toNat_getIntN hw
  have hrun := is_ashr h (is_getIntN w (w - 1)) (by omega)
  rwa [hlast, sshiftRight_pred hw] at hrun

theorem magnitude_ne_zero (hx : x ≠ 0) : (if x.msb then -x else x) ≠ 0 := by
  split
  · intro hneg
    exact hx (BitVec.neg_eq_zero_iff.mp hneg)
  · exact hx

theorem generateSignedRemainderCode_computes {expandURem : Value w → Value w → Exec (Value w)}
    (h : Computes expandURem BitVec.umod) :
    Computes (generateSignedRemainderCode expandURem) BitVec.srem := by
  intro Dividend Divisor a b ha hb hne
  have hw := pos_of_ne_zero hne
  have hA : Value.Is (w := w) ⟨false, some a⟩ a := rfl
  have hB : Value.Is (w := w) ⟨false, some b⟩ b := rfl
  have hsignA := sign_is hw hA
  have hsignB := sign_is hw hB
  have hmagA := is_sub (is_xor hA hsignA) hsignA
  have hmagB := is_sub (is_xor hB hsignB) hsignB
  rw [xor_sub_sign] at hmagA hmagB
  obtain ⟨v, hrun, hv⟩ := h _ _ _ _ hmagA hmagB (magnitude_ne_zero hne)
  have hres := is_sub (is_xor hv hsignA) hsignA
  rw [xor_sub_sign] at hres
  simp only [generateSignedRemainderCode, freeze_of_is ha, freeze_of_is hb, pure_bind]
  rw [inPlace_of_instruction rfl, hrun, pure_bind]
  refine ⟨_, rfl, ?_⟩
  rw [BitVec.srem_eq]
  cases hma : a.msb <;> cases hmb : b.msb <;> simpa [hma, hmb] using hres

theorem generateSignedDivisionCode_computes {expandUDiv : Value w → Value w → Exec (Value w)}
    (h : Computes expandUDiv BitVec.udiv) :
    Computes (generateSignedDivisionCode expandUDiv) BitVec.sdiv := by
  intro Dividend Divisor a b ha hb hne
  have hw := pos_of_ne_zero hne
  have hA : Value.Is (w := w) ⟨false, some a⟩ a := rfl
  have hB : Value.Is (w := w) ⟨false, some b⟩ b := rfl
  have hTmp := sign_is hw hA
  have hTmp1 := sign_is hw hB
  have hU_Dvnd := is_sub (is_xor hTmp hA) hTmp
  have hU_Dvsr := is_sub (is_xor hTmp1 hB) hTmp1
  have hQ_Sgn := is_xor hTmp1 hTmp
  rw [BitVec.xor_comm, xor_sub_sign] at hU_Dvnd hU_Dvsr
  rw [xor_signs] at hQ_Sgn
  obtain ⟨v, hrun, hv⟩ := h _ _ _ _ hU_Dvnd hU_Dvsr (magnitude_ne_zero hne)
  have hres := is_sub (is_xor hv hQ_Sgn) hQ_Sgn
  rw [xor_sub_sign] at hres
  simp only [generateSignedDivisionCode, freeze_of_is ha, freeze_of_is hb, pure_bind]
  rw [inPlace_of_instruction rfl, hrun, pure_bind]
  refine ⟨_, rfl, ?_⟩
  rw [BitVec.sdiv_eq]
  cases hma : a.msb <;> cases hmb : b.msb <;> simpa [hma, hmb] using hres

/-! ## The entry points -/

namespace BinaryOps

/-- Whether the operation is a division, and not a remainder. -/
def isDiv : BinaryOps → Bool
  | .UDiv | .SDiv => true
  | .URem | .SRem => false

def isSigned : BinaryOps → Bool
  | .SDiv | .SRem => true
  | .UDiv | .URem => false

/-- The operation on words. -/
def eval : BinaryOps → BitVec w → BitVec w → BitVec w
  | .UDiv => BitVec.udiv
  | .SDiv => BitVec.sdiv
  | .URem => BitVec.umod
  | .SRem => BitVec.srem

end BinaryOps

/-- `expandDivision` or `expandRemainder`, whichever takes the operation. -/
def expand (fuel : Nat) (Opcode : BinaryOps) : Value w → Value w → Exec (Value w) :=
  if Opcode.isDiv then expandDivision fuel Opcode else expandRemainder fuel Opcode

theorem expand_computes (Opcode : BinaryOps) {fuel : Nat} (hfuel : w ≤ fuel) :
    Computes (w := w) (expand fuel Opcode) Opcode.eval := by
  have hUDiv : Computes (w := w) (generateUnsignedDivisionCode fuel) BitVec.udiv :=
    generateUnsignedDivisionCode_computes hfuel
  have hURem : Computes (w := w) (generatedUnsignedRemainderCode
      (generateUnsignedDivisionCode fuel)) BitVec.umod :=
    generatedUnsignedRemainderCode_computes hUDiv
  cases Opcode with
  | UDiv => exact hUDiv
  | SDiv => exact generateSignedDivisionCode_computes hUDiv
  | URem => exact hURem
  | SRem => exact generateSignedRemainderCode_computes hURem

theorem toInt_setWidth_of_le (hu : w ≤ u) (x : BitVec u) :
    (x.setWidth w).toInt = x.toInt.bmod (2 ^ w) := by
  rw [BitVec.toInt_setWidth, BitVec.toInt_eq_toNat_bmod x, Int.bmod_bmod_of_dvd (Nat.pow_dvd_pow 2 hu)]

theorem eval_extended (Opcode : BinaryOps) (hu : w ≤ u) (a b : BitVec w) :
    (Opcode.eval (if Opcode.isSigned then a.signExtend u else a.setWidth u)
      (if Opcode.isSigned then b.signExtend u else b.setWidth u)).setWidth w = Opcode.eval a b := by
  have hpow : 2 ^ w ≤ 2 ^ u := Nat.pow_le_pow_right (by decide) hu
  have hext (x : BitVec w) : (x.setWidth u).toNat = x.toNat := by
    rw [BitVec.toNat_setWidth, Nat.mod_eq_of_lt (by omega)]
  cases Opcode with
  | UDiv =>
    apply BitVec.eq_of_toNat_eq
    simp only [BinaryOps.eval, BinaryOps.isSigned, Bool.false_eq_true, if_false,
      BitVec.udiv_eq, BitVec.toNat_setWidth w, BitVec.toNat_udiv, hext]
    exact Nat.mod_eq_of_lt (Nat.div_lt_of_lt a.isLt)
  | URem =>
    apply BitVec.eq_of_toNat_eq
    simp only [BinaryOps.eval, BinaryOps.isSigned, Bool.false_eq_true, if_false,
      BitVec.umod_eq, BitVec.toNat_setWidth w, BitVec.toNat_umod, hext]
    exact Nat.mod_eq_of_lt (Nat.mod_lt_of_lt a.isLt)
  | SDiv =>
    apply BitVec.eq_of_toInt_eq
    simp only [BinaryOps.eval, BinaryOps.isSigned, if_true]
    rw [toInt_setWidth_of_le hu, BitVec.toInt_sdiv, BitVec.toInt_sdiv,
      BitVec.toInt_signExtend_of_le hu, BitVec.toInt_signExtend_of_le hu,
      Int.bmod_bmod_of_dvd (Nat.pow_dvd_pow 2 hu)]
  | SRem =>
    apply BitVec.eq_of_toInt_eq
    simp only [BinaryOps.eval, BinaryOps.isSigned, if_true]
    rw [toInt_setWidth_of_le hu, BitVec.toInt_srem, BitVec.toInt_signExtend_of_le hu,
      BitVec.toInt_signExtend_of_le hu, ← BitVec.toInt_srem, BitVec.toInt_bmod_cancel]

theorem expandExtended_computes (Opcode : BinaryOps) (hu : w ≤ u)
    {code : Value u → Value u → Exec (Value u)} (hcode : Computes code Opcode.eval)
    (hconst : ¬(LHS.isConstant = true ∧ RHS.isConstant = true)) (ha : LHS.Is a) (hb : RHS.Is b)
    (hne : b ≠ 0) :
    ∃ v, expandExtended u Opcode.isSigned code LHS RHS = pure v ∧ v.Is (Opcode.eval a b) := by
  have hflag (V : Value w) :
      (if Opcode.isSigned then CreateSExt V u else CreateZExt V u).isConstant = V.isConstant := by
    split <;> rfl
  have hext {V : Value w} {x : BitVec w} (hV : V.Is x) :
      (if Opcode.isSigned then CreateSExt V u else CreateZExt V u).Is
        (if Opcode.isSigned then x.signExtend u else x.setWidth u) := by
    split
    · exact is_sext hV u
    · exact is_zext hV u
  have hne' : (if Opcode.isSigned then b.signExtend u else b.setWidth u) ≠ 0 := by
    intro hzero
    apply hne
    split at hzero
    · have hint := congrArg BitVec.toInt hzero
      rw [BitVec.toInt_signExtend_of_le hu] at hint
      exact BitVec.eq_of_toInt_eq (hint.trans (BitVec.toInt_zero.trans BitVec.toInt_zero.symm))
    · have hback := congrArg (BitVec.setWidth w) hzero
      rw [BitVec.setWidth_setWidth_of_le _ hu, BitVec.setWidth_eq] at hback
      exact hback.trans (BitVec.setWidth_zero _ _)
  obtain ⟨v, hrun, hv⟩ := hcode _ _ _ _ (hext ha) (hext hb) hne'
  have hres := is_trunc hv w
  rw [eval_extended Opcode hu] at hres
  refine ⟨CreateTrunc v w, ?_, hres⟩
  simp only [expandExtended]
  rw [Call.assert_of (by simpa only [hflag, Bool.and_eq_true] using hconst), hrun]
  rfl

theorem expandExtended_constants {isSigned : Bool} {code : Value u → Value u → Exec (Value u)}
    {choices : Choices} (hconst : LHS.isConstant = true ∧ RHS.isConstant = true) :
    expandExtended u isSigned code LHS RHS choices = .stuck := by
  have hflag (V : Value w) :
      (if isSigned then CreateSExt V u else CreateZExt V u).isConstant = V.isConstant := by
    split <;> rfl
  have hstuck : (Call.assert (¬((if isSigned then CreateSExt LHS u else CreateZExt LHS u).isConstant &&
      (if isSigned then CreateSExt RHS u else CreateZExt RHS u).isConstant)) : Exec Unit) =
      Call.stuck := if_neg (by simp [hflag, hconst])
  simp only [expandExtended, hstuck]
  rfl

/-- A function that expands a `udiv`, `sdiv`, `urem` or `srem`. -/
inductive Expansion where
  /-- `expandDivision` and `expandRemainder` -/
  | anyWidth
  /-- `expandDivisionUpTo32Bits` and `expandRemainderUpTo32Bits` -/
  | upTo32Bits
  /-- `expandDivisionUpTo64Bits` and `expandRemainderUpTo64Bits` -/
  | upTo64Bits
  deriving DecidableEq, Repr

namespace Expansion

/-- The code in the place of the operation. -/
def code (E : Expansion) (fuel : Nat) (Opcode : BinaryOps) : Value w → Value w → Exec (Value w) :=
  match E, Opcode.isDiv with
  | .anyWidth, true => expandDivision fuel Opcode
  | .anyWidth, false => expandRemainder fuel Opcode
  | .upTo32Bits, true => expandDivisionUpTo32Bits fuel Opcode
  | .upTo32Bits, false => expandRemainderUpTo32Bits fuel Opcode
  | .upTo64Bits, true => expandDivisionUpTo64Bits fuel Opcode
  | .upTo64Bits, false => expandRemainderUpTo64Bits fuel Opcode

/-- Whether the operands are extended. -/
def Extends (w : Nat) : Expansion → Prop
  | .anyWidth => False
  | .upTo32Bits => w ≠ 32
  | .upTo64Bits => w < 64

end Expansion

/-- The operation's result, as a number. -/
def BinaryOps.IsResult (Opcode : BinaryOps) (a b r : BitVec w) : Prop :=
  match Opcode with
  | .UDiv => r.toNat = a.toNat / b.toNat
  | .SDiv => r.toInt = a.toInt.tdiv b.toInt
  | .URem => r.toNat = a.toNat % b.toNat
  | .SRem => r.toInt = a.toInt.tmod b.toInt

theorem BinaryOps.eval_isResult (Opcode : BinaryOps)
    (h : Opcode.isSigned = true → ¬(a = BitVec.intMin w ∧ b = -1)) :
    Opcode.IsResult a b (Opcode.eval a b) := by
  cases Opcode with
  | UDiv => exact BitVec.toNat_udiv
  | SDiv => exact BitVec.toInt_sdiv_of_ne_or_ne a b (Classical.not_and_iff_not_or_not.mp (h rfl))
  | URem => exact BitVec.toNat_umod
  | SRem => exact BitVec.toInt_srem a b

section Codes

variable {fuel : Nat} {Opcode : BinaryOps}

theorem expandDivisionUpTo32Bits_eq (hop : Opcode.isDiv = true) (hw : w ≤ 32) :
    expandDivisionUpTo32Bits (w := w) fuel Opcode =
      if w = 32 then expand fuel Opcode
      else expandExtended 32 Opcode.isSigned (expand fuel Opcode) := by
  funext Dividend Divisor
  cases Opcode with
  | UDiv | SDiv =>
    rw [expandDivisionUpTo32Bits, Call.assert_of (by decide), Call.assert_of hw, pure_bind,
      pure_bind]
    split <;> rfl
  | URem | SRem => cases hop

theorem expandRemainderUpTo32Bits_eq (hop : Opcode.isDiv = false) (hw : w ≤ 32) :
    expandRemainderUpTo32Bits (w := w) fuel Opcode =
      if w = 32 then expand fuel Opcode
      else expandExtended 32 Opcode.isSigned (expand fuel Opcode) := by
  funext Dividend Divisor
  cases Opcode with
  | UDiv | SDiv => cases hop
  | URem | SRem =>
    rw [expandRemainderUpTo32Bits, Call.assert_of (by decide), Call.assert_of hw, pure_bind,
      pure_bind]
    split <;> rfl

theorem expandDivisionUpTo64Bits_eq (hop : Opcode.isDiv = true) :
    expandDivisionUpTo64Bits (w := w) fuel Opcode =
      if 64 ≤ w then expand fuel Opcode
      else expandExtended 64 Opcode.isSigned (expand fuel Opcode) := by
  funext Dividend Divisor
  cases Opcode with
  | UDiv | SDiv =>
    rw [expandDivisionUpTo64Bits, Call.assert_of (by decide), pure_bind]
    split <;> rfl
  | URem | SRem => cases hop

theorem expandRemainderUpTo64Bits_eq (hop : Opcode.isDiv = false) :
    expandRemainderUpTo64Bits (w := w) fuel Opcode =
      if 64 ≤ w then expand fuel Opcode
      else expandExtended 64 Opcode.isSigned (expand fuel Opcode) := by
  funext Dividend Divisor
  cases Opcode with
  | UDiv | SDiv => cases hop
  | URem | SRem =>
    rw [expandRemainderUpTo64Bits, Call.assert_of (by decide), pure_bind]
    split <;> rfl

theorem Expansion.code_cases (E : Expansion) (fuel : Nat) (Opcode : BinaryOps)
    (hwidth : E = .upTo32Bits → w ≤ 32) :
    ¬E.Extends w ∧ E.code (w := w) fuel Opcode = expand fuel Opcode ∨
      E.Extends w ∧ ∃ u, w ≤ u ∧ u ≤ 64 ∧
        E.code (w := w) fuel Opcode = expandExtended u Opcode.isSigned (expand fuel Opcode) := by
  cases E with
  | anyWidth =>
    left
    refine ⟨id, ?_⟩
    unfold code expand
    cases Opcode.isDiv <;> rfl
  | upTo32Bits =>
    have hle := hwidth rfl
    have hcode : code (w := w) .upTo32Bits fuel Opcode = if w = 32 then expand fuel Opcode
        else expandExtended 32 Opcode.isSigned (expand fuel Opcode) := by
      cases hop : Opcode.isDiv with
      | true => simp only [code, hop, expandDivisionUpTo32Bits_eq hop hle]
      | false => simp only [code, hop, expandRemainderUpTo32Bits_eq hop hle]
    by_cases hw : w = 32
    · exact .inl ⟨fun hext => hext hw, by rw [hcode, if_pos hw]⟩
    · exact .inr ⟨hw, 32, hle, by decide, by rw [hcode, if_neg hw]⟩
  | upTo64Bits =>
    have hcode : code (w := w) .upTo64Bits fuel Opcode = if 64 ≤ w then expand fuel Opcode
        else expandExtended 64 Opcode.isSigned (expand fuel Opcode) := by
      cases hop : Opcode.isDiv with
      | true => simp only [code, hop, expandDivisionUpTo64Bits_eq hop]
      | false => simp only [code, hop, expandRemainderUpTo64Bits_eq hop]
    by_cases hw : 64 ≤ w
    · exact .inl ⟨Nat.not_lt.mpr hw, by rw [hcode, if_pos hw]⟩
    · exact .inr ⟨Nat.lt_of_not_le hw, 64, by omega, by decide, by rw [hcode, if_neg hw]⟩

end Codes

/-- A run of the code ends without undefined behaviour, whatever poison is frozen to, with a result
that is not poison and is the operation's. -/
def Expansion.Correct (E : Expansion) (Opcode : BinaryOps) (Dividend Divisor : Value w)
    (a b : BitVec w) : Prop :=
  ∀ fuel choices, max w 64 ≤ fuel → ∃ v r,
    E.code fuel Opcode Dividend Divisor choices = .ok (v, choices) ∧ v.Is r ∧
      Opcode.IsResult a b r

/-- An expansion is correct unless it has to extend two constants, which leaves no instruction to
expand. -/
theorem expansion_correct_iff (E : Expansion) (Opcode : BinaryOps) {Dividend Divisor : Value w}
    {a b : BitVec w} (ha : Dividend.Is a) (hb : Divisor.Is b) (hne : b ≠ 0)
    (hsigned : Opcode.isSigned = true → ¬(a = BitVec.intMin w ∧ b = -1))
    (hwidth : E = .upTo32Bits → w ≤ 32) :
    E.Correct Opcode Dividend Divisor a b ↔
      ¬(E.Extends w ∧ Dividend.isConstant = true ∧ Divisor.isConstant = true) := by
  have hresult := Opcode.eval_isResult hsigned
  constructor
  · intro hcorrect hextends
    obtain ⟨hext, hconst⟩ := hextends
    obtain ⟨v, r, hrun, -, -⟩ := hcorrect (max w 64) (fun _ => 0) (Nat.le_refl _)
    obtain ⟨hnot, -⟩ | ⟨-, u, -, -, hcode⟩ := E.code_cases (max w 64) Opcode hwidth
    · exact hnot hext
    · rw [hcode, expandExtended_constants hconst] at hrun
      cases hrun
  · intro hfold fuel choices hfuel
    obtain ⟨-, hcode⟩ | ⟨hext, u, hu, hu64, hcode⟩ := E.code_cases fuel Opcode hwidth
    · have hturns : w ≤ fuel := by omega
      obtain ⟨v, hrun, hv⟩ := expand_computes Opcode hturns Dividend Divisor a b ha hb hne
      exact ⟨v, _, by rw [hcode, hrun]; rfl, hv, hresult⟩
    · have hturns : u ≤ fuel := by omega
      obtain ⟨v, hrun, hv⟩ := expandExtended_computes Opcode hu (expand_computes Opcode hturns)
        (fun hconst => hfold ⟨hext, hconst⟩) ha hb hne
      exact ⟨v, _, by rw [hcode, hrun]; rfl, hv, hresult⟩

/-- Minus seven by two, in eight bits and through thirty-two. -/
theorem expansion_correct_iff_sdiv :
    Expansion.upTo32Bits.Correct .SDiv (⟨false, some (-7#8)⟩ : Value 8) ⟨true, some 2⟩ (-7) 2 :=
  (expansion_correct_iff .upTo32Bits .SDiv (show Value.Is ⟨false, some (-7#8)⟩ (-7) from rfl)
    (show Value.Is ⟨true, some 2⟩ 2 from rfl) (by decide) (by decide) (by decide)).mpr
    (fun h => Bool.false_ne_true h.2.1)

/-- Seven by three: the operation on the extended constants has been folded. -/
theorem constants_not_expanded :
    ¬Expansion.upTo32Bits.Correct .UDiv (⟨true, some 7⟩ : Value 8) ⟨true, some 3⟩ 7 3 := by
  intro hcorrect
  obtain ⟨v, r, hrun, -, -⟩ := hcorrect 64 (fun _ => 0) (by decide)
  cases hrun

end SmlnjLlvm.IR.IntegerDivision
