import SmlnjLlvm.RISCV.Decomposition

/-!
# Rewrites of a sequence

Each rewrite keeps the sequence that it has, or replaces it by one that leaves
the same value. Beyond the first of them the value has more than 32 bits.
-/

namespace SmlnjLlvm.RISCV

open Support Words

variable {STI : MCSubtargetInfo} {fuel : Nat} {Val : BitVec 64} {Res : InstSeq}

variable {Opc : Opcode} {T : InstSeq} {i n w : Nat} {imm v x : BitVec 64}

theorem generateInstSeqImpl_mono_le {m : Nat} (hnm : n ≤ m)
    (h : generateInstSeqImpl STI n Val = some Res) : generateInstSeqImpl STI m Val = some Res := by
  induction hnm with
  | refl => exact h
  | step _ ih => exact generateInstSeqImpl_mono ih

theorem generateInstSeqImpl_narrow (h : STI.Feature64Bit = false) (fuel : Nat) (Val : BitVec 64) :
    generateInstSeqImpl STI (fuel + 1) Val = generateInstSeqImpl STI 1 Val := by
  unfold generateInstSeqImpl
  simp only [h, guard, Bool.false_eq_true, if_false, Option.bind_eq_bind]
  rfl

theorem generateInstSeqImpl_fuel (STI : MCSubtargetInfo) (h : 4 ≤ fuel) :
    generateInstSeqImpl STI fuel = generateInstSeqImpl STI 4 := by
  funext Val
  cases h64 : STI.Feature64Bit with
  | true =>
    obtain ⟨Res, hRes, _⟩ := generateInstSeqImpl_spec h64 Val
    rw [hRes, generateInstSeqImpl_mono_le h hRes]
  | false =>
    obtain ⟨n, rfl⟩ := Nat.exists_eq_add_of_le' h
    rw [generateInstSeqImpl_narrow h64 (n + 3), generateInstSeqImpl_narrow h64 3]

/-- What the decomposition does with enough fuel, on a register of 64 bits. -/
def Decomposes (STI : MCSubtargetInfo) (fuel : Nat) : Prop :=
  ∀ Val, ∃ Res, generateInstSeqImpl STI fuel Val = some Res ∧ Computes Res Val

theorem decomposes (h64 : STI.Feature64Bit = true) (h : 4 ≤ fuel) : Decomposes STI fuel := by
  intro Val
  rw [generateInstSeqImpl_fuel STI h]
  exact generateInstSeqImpl_spec h64 Val

/-- A rewrite that gives a sequence for the same value. -/
def Keeps (rewrite : Option InstSeq) (v : BitVec 64) : Prop :=
  ∃ Res, rewrite = some Res ∧ Computes Res v

theorem Keeps.refl (h : Computes Res v) : Keeps (some Res) v := ⟨Res, rfl, h⟩

theorem emplace_back_keeps (hT : Computes T x) (himm : isInt 32 imm = true)
    (hexec : Inst.exec { Opc := Opc, Imm := imm } x = some v) : Keeps (emplace_back Opc imm T) v :=
  ⟨_, emplace_back_eq himm T, hT.snoc hexec⟩

theorem improve_keeps (hd : Decomposes STI fuel) (hRes : Computes Res v) (himm : isInt 32 imm = true)
    (hexec : Inst.exec { Opc := Opc, Imm := imm } x = some v) :
    Keeps (generateInstSeqImpl STI fuel x >>= fun T => improve Res T Opc imm) v := by
  obtain ⟨T, hT, hcomputes⟩ := hd x
  rw [hT, Option.bind_eq_bind, Option.bind_some]
  unfold improve
  split
  · exact emplace_back_keeps hcomputes himm hexec
  · exact Keeps.refl hRes

theorem and_0xfff_toNat (x : BitVec 64) : (x &&& 0xfff).toNat = x.toNat % 2 ^ 12 := by
  have hmask : (0xfff : BitVec 64).toNat = 2 ^ 12 - 1 := rfl
  rw [BitVec.toNat_and, hmask, Nat.and_two_pow_sub_one_eq_mod]

theorem countr_zero_lt_of_low (h : Val &&& 0xfff ≠ 0) : countr_zero Val < 12 := by
  by_contra hge
  apply h
  have hne : Val ≠ 0 := by
    intro hzero
    rw [hzero] at h
    exact h rfl
  apply BitVec.eq_of_toNat_eq
  rw [and_0xfff_toNat]
  exact mod_of_low_bits fun i hi => (countr_zero_spec hne).2 i (by omega)

theorem trailing_exec (h : Val &&& 0xfff ≠ 0) (hw : w = 32 ∨ w = 64) :
    Inst.exec { Opc := .SLLI, Imm := BitVec.ofNat 64 (countr_zero Val) }
        ((Val.sshiftRight (countr_zero Val)).setWidth w) = some (Val.setWidth w) := by
  have hlt := countr_zero_lt_of_low h
  have hne : Val ≠ 0 := by
    intro hzero
    rw [hzero] at h
    exact h rfl
  rw [exec_SLLI (by omega) (by omega), ← BitVec.setWidth_shiftLeft_of_le (by omega),
    sshiftRight_shiftLeft (countr_zero_spec hne).2]

theorem trailingZeros_keeps (hd : Decomposes STI fuel) (hRes : Computes Res Val) :
    Keeps (trailingZeros STI fuel Val Res) Val := by
  unfold trailingZeros
  split
  · next hcond =>
      obtain ⟨T, hT, hcomputes⟩ := hd (Val.sshiftRight (countr_zero Val))
      have hlt := countr_zero_lt_of_low hcond.1
      have hexec := trailing_exec hcond.1 (Or.inr rfl)
      dsimp only
      rw [hT, Option.bind_eq_bind, Option.bind_some]
      split
      · exact emplace_back_keeps hcomputes (isInt_32_ofNat (by omega)) hexec
      · exact Keeps.refl hRes
  · exact Keeps.refl hRes

theorem adjustLow_keeps (hd : Decomposes STI fuel) (hRes : Computes Res Val) :
    Keeps (adjustLow STI fuel Val Res) Val := by
  unfold adjustLow
  split
  · next hcond =>
      have himm : isInt 12 (-(0x800 - (Val &&& 0xfff))) = true := by
        have h800 : (0x800 : BitVec 64).toNat = 2 ^ 11 := rfl
        rw [isInt_12_iff, BitVec.toNat_neg, BitVec.toNat_sub, and_0xfff_toNat, h800]
        omega
      apply improve_keeps hd hRes (isInt_32_of_12 himm)
      rw [exec_ADDI himm, BitVec.setWidth_eq, BitVec.sub_add_cancel]
  · exact Keeps.refl hRes

/-! ## Leading zeros -/

theorem exec_SRLI (h : n < 64) (rs : BitVec 64) :
    Inst.exec { Opc := .SRLI, Imm := BitVec.ofNat 64 n } rs = some (rs >>> n) := by
  change Opcode.result .SRLI rs 0 _ = _
  simp only [Opcode.result, ofNat_toNat_of_lt h, guard, if_pos h, Option.pure_def,
    Option.bind_eq_bind, Option.bind_some]

theorem exec_ADD_UW (rs : BitVec 64) :
    Inst.exec { Opc := .ADD_UW, Imm := 0 } rs = some (zextW rs) := by
  change Opcode.result .ADD_UW rs 0 0 = _
  simp only [Opcode.result, guard, if_pos, Option.pure_def, Option.bind_eq_bind, Option.bind_some]
  exact congrArg some (BitVec.add_zero _)

theorem exec_XORI (rs : BitVec 64) :
    Inst.exec { Opc := .XORI, Imm := BitVec.allOnes 64 } rs = some (~~~rs) := by
  change Opcode.result .XORI rs 0 (BitVec.allOnes 64) = _
  have himm : isInt 12 (BitVec.allOnes 64) = true := by decide
  simp only [Opcode.result, guard, if_pos himm, Option.pure_def, Option.bind_eq_bind,
    Option.bind_some, BitVec.setWidth_eq, BitVec.xor_allOnes]

/-- A sequence that leaves a value, unless there is none yet. -/
def Candidate (Res : InstSeq) (v : BitVec 64) : Prop := Res ≠ [] → Computes Res v

/-- A rewrite of a sequence that may not be there. -/
def KeepsCandidate (rewrite : Option InstSeq) (Res : InstSeq) (v : BitVec 64) : Prop :=
  ∃ Res', rewrite = some Res' ∧ Candidate Res' v ∧ (Res ≠ [] → Res' ≠ [])

theorem improveOrFirst_keeps (hRes : Candidate Res v) (hT : Computes T x)
    (himm : isInt 32 imm = true) (hexec : Inst.exec { Opc := Opc, Imm := imm } x = some v) :
    KeepsCandidate (improveOrFirst Res T Opc imm) Res v := by
  unfold improveOrFirst
  split
  · obtain ⟨Res', hRes', hcomputes⟩ := emplace_back_keeps hT himm hexec
    refine ⟨Res', hRes', fun _ => hcomputes, ?_⟩
    intro _ hnil
    rw [emplace_back_eq himm] at hRes'
    rw [← Option.some.inj hRes', List.append_eq_nil_iff] at hnil
    cases hnil.2
  · exact ⟨Res, rfl, hRes, fun h => h⟩

theorem getLsbD_trailingOnes (hn : n ≤ 64) (i : Nat) :
    (BitVec.allOnes 64 >>> (64 - n)).getLsbD i = decide (i < n) := by
  rw [BitVec.getLsbD_ushiftRight, BitVec.getLsbD_allOnes, decide_eq_decide]
  omega

theorem maskTrailingOnes_eq (hpos : 0 < n) (hn : n ≤ 64) :
    maskTrailingOnes n = some (BitVec.allOnes 64 >>> (64 - n)) := by
  unfold maskTrailingOnes guard
  rw [if_pos hn, if_neg (by omega)]
  rfl

theorem maskTrailingZeros_eq (hpos : 0 < n) (hn : n ≤ 64) :
    maskTrailingZeros n = some (~~~(BitVec.allOnes 64 >>> (64 - n))) := by
  have hsub : 64 - (64 - n) = n := by omega
  unfold maskTrailingZeros maskLeadingOnes guard
  rw [if_pos hn, if_pos (Nat.sub_le 64 n), hsub, maskTrailingOnes_eq hpos hn]
  rfl

theorem countl_zero_pos (h : 0 < Val.toInt) :
    0 < countl_zero Val ∧ countl_zero Val < 64 ∧
      ∀ i, 64 - countl_zero Val ≤ i → Val.getLsbD i = false := by
  have hcases := toInt_cases Val
  have hne : Val ≠ 0 := by
    intro hzero
    rw [hzero] at h
    exact absurd h (by decide)
  obtain ⟨hbit, hhigh⟩ := countl_zero_spec (by decide) hne
  have htop : Val.getLsbD 63 = false := by
    rw [← BitVec.testBit_toNat]
    apply Nat.testBit_lt_two_pow
    omega
  have hlt := countl_zero_lt hne
  refine ⟨?_, hlt, fun i hi => hhigh i (by omega)⟩
  apply Nat.pos_of_ne_zero
  intro hzero
  rw [hzero, htop] at hbit
  cases hbit

theorem generateInstSeqLeadingZeros_keeps (hd : Decomposes STI fuel) (hpos : 0 < Val.toInt)
    (hRes : Candidate Res Val) :
    KeepsCandidate (generateInstSeqLeadingZeros STI fuel Val Res) Res Val := by
  obtain ⟨hlz, hlt, hhigh⟩ := countl_zero_pos hpos
  have hones : ∀ i, countl_zero Val ≤ i →
      (BitVec.allOnes 64 >>> (64 - countl_zero Val)).getLsbD i = false := by
    intro i hi
    rw [getLsbD_trailingOnes (by omega), decide_eq_false (by omega)]
  unfold generateInstSeqLeadingZeros
  simp only [guard, if_pos hpos, maskTrailingOnes_eq hlz (Nat.le_of_lt hlt),
    maskTrailingZeros_eq hlz (Nat.le_of_lt hlt), Option.pure_def, Option.bind_eq_bind,
    Option.bind_some]
  have hshift := shiftLeft_ushiftRight hhigh hones
  have hshift' : ((Val <<< countl_zero Val ||| BitVec.allOnes 64 >>> (64 - countl_zero Val)) &&&
      ~~~(BitVec.allOnes 64 >>> (64 - countl_zero Val))) >>> countl_zero Val = Val := by
    refine Eq.trans ?_ hshift
    apply BitVec.eq_of_getLsbD_eq
    intro i hi
    rw [BitVec.getLsbD_ushiftRight, BitVec.getLsbD_ushiftRight, BitVec.getLsbD_and,
      BitVec.getLsbD_not, hones _ (Nat.le_add_right _ i)]
    by_cases hin : countl_zero Val + i < 64
    · rw [decide_eq_true hin]
      exact Bool.and_true _
    · rw [decide_eq_false hin, BitVec.getLsbD_of_ge _ _ (Nat.not_lt.mp hin)]
      rfl
  have himm : isInt 32 (BitVec.ofNat 64 (countl_zero Val)) = true := isInt_32_ofNat (by omega)
  generalize Val <<< countl_zero Val ||| BitVec.allOnes 64 >>> (64 - countl_zero Val) = X
    at hshift hshift' ⊢
  generalize X &&& ~~~(BitVec.allOnes 64 >>> (64 - countl_zero Val)) = Y at hshift' ⊢
  obtain ⟨T, hT, hcomputes⟩ := hd X
  obtain ⟨T', hT', hcomputes'⟩ := hd Y
  rw [hT, Option.bind_some]
  have hexec := exec_SRLI hlt X
  have hexec' := exec_SRLI hlt Y
  rw [hshift] at hexec
  rw [hshift'] at hexec'
  obtain ⟨R, hR, hcand, hne⟩ := improveOrFirst_keeps hRes hcomputes himm hexec
  obtain ⟨R', hR', hcand', hne'⟩ := improveOrFirst_keeps hcand hcomputes' himm hexec'
  rw [hR, Option.bind_some, hT', Option.bind_some, hR', Option.bind_some]
  split
  · next hcond =>
      have hmask : maskLeadingOnes (countl_zero Val) = some upperOnes := by
        rw [hcond.1]
        decide +kernel
      have huint : isUInt 32 Val = true := by
        apply decide_eq_true
        apply Nat.lt_pow_two_of_testBit
        intro i hi
        rw [BitVec.testBit_toNat]
        exact hhigh i (by omega)
      obtain ⟨T'', hT'', hcomputes''⟩ := hd (Val ||| upperOnes)
      have hexec'' := exec_ADD_UW (Val ||| upperOnes)
      rw [zextW_or_upperOnes huint] at hexec''
      rw [hmask, Option.bind_some, hT'', Option.bind_some]
      obtain ⟨R'', hR'', hcand'', hne''⟩ :=
        improveOrFirst_keeps hcand' hcomputes'' (by decide) hexec''
      exact ⟨R'', hR'', hcand'', fun h => hne'' (hne' (hne h))⟩
  · exact ⟨R', rfl, hcand', fun h => hne' (hne h)⟩

theorem leadingZeros_keeps (hd : Decomposes STI fuel) (hRes : Computes Res Val) :
    Keeps (leadingZeros STI fuel Val Res) Val := by
  unfold leadingZeros
  split
  · next hcond =>
      have hne : Res ≠ [] := by
        intro hnil
        rw [hnil] at hcond
        exact absurd hcond.2 (by decide)
      obtain ⟨Res', hRes', hcand, hkept⟩ :=
        generateInstSeqLeadingZeros_keeps hd hcond.1 (fun _ => hRes)
      exact ⟨Res', hRes', hcand (hkept hne)⟩
  · exact Keeps.refl hRes

theorem invert_keeps (hd : Decomposes STI fuel) (hbig : ¬isInt 32 Val = true)
    (hRes : Computes Res Val) : Keeps (invert STI fuel Val Res) Val := by
  unfold invert
  split
  · next hcond =>
      have hpos : 0 < (~~~Val).toInt := by
        have hcases := toInt_cases Val
        have hcases' := toInt_cases (~~~Val)
        have hnot := BitVec.toNat_not (x := Val)
        rw [isInt_32_iff] at hbig
        omega
      obtain ⟨T, hT, hcand, _⟩ :=
        generateInstSeqLeadingZeros_keeps hd hpos (fun h => absurd rfl h)
      rw [hT, Option.bind_eq_bind, Option.bind_some]
      split
      · next hshorter =>
          have hexec := exec_XORI (~~~Val)
          rw [BitVec.not_not] at hexec
          exact emplace_back_keeps (hcand hshorter.1) (by decide) hexec
      · exact Keeps.refl hRes
  · exact Keeps.refl hRes

theorem getLsbD_SignExtend64_32 (x : BitVec 64) (hi : i < 32) :
    (SignExtend64 32 x).getLsbD i = x.getLsbD i := by
  rw [SignExtend64_eq (by decide) (by decide), BitVec.getLsbD_signExtend, if_pos hi,
    decide_eq_true (by omega : i < 64), Bool.true_and, BitVec.getLsbD_setWidth, decide_eq_true hi,
    Bool.true_and]

theorem exec_PACK (rs : BitVec 64) :
    Inst.exec { Opc := .PACK, Imm := 0 } rs = some ((rs.setWidth 32).setWidth 64 ||| rs <<< 32) :=
  rfl

theorem pack_eq (h : SignExtend64 32 Val = SignExtend64 32 (Val.sshiftRight 32)) :
    ((SignExtend64 32 Val).setWidth 32).setWidth 64 ||| SignExtend64 32 Val <<< 32 = Val := by
  apply BitVec.eq_of_getLsbD_eq
  intro i hi
  rw [BitVec.getLsbD_or, BitVec.getLsbD_setWidth, BitVec.getLsbD_setWidth,
    BitVec.getLsbD_shiftLeft, decide_eq_true hi]
  by_cases hlow : i < 32
  · rw [decide_eq_true hlow, getLsbD_SignExtend64_32 Val hlow]
    simp
  · have hsum : 32 + (i - 32) = i := by omega
    rw [decide_eq_false hlow, Bool.false_and, Bool.and_false, Bool.false_or, h,
      getLsbD_SignExtend64_32 _ (by omega : i - 32 < 32), BitVec.getLsbD_sshiftRight, hsum,
      if_pos hi, decide_eq_false (by omega : ¬64 ≤ i - 32)]
    simp

theorem pack_keeps (hd : Decomposes STI fuel) (hRes : Computes Res Val) :
    Keeps (pack STI fuel Val Res) Val := by
  unfold pack
  dsimp only
  split
  · split
    · next heq =>
        have hexec := exec_PACK (SignExtend64 32 Val)
        rw [pack_eq heq] at hexec
        exact improve_keeps hd hRes (by decide) hexec
    · exact Keeps.refl hRes
  · exact Keeps.refl hRes

/-! ## Single bits -/

theorem exec_BCLRI (h : n < 64) (rs : BitVec 64) :
    Inst.exec { Opc := .BCLRI, Imm := BitVec.ofNat 64 n } rs =
      some (rs &&& ~~~((1 : BitVec 64) <<< n)) := by
  change Opcode.result .BCLRI rs 0 _ = _
  simp only [Opcode.result, ofNat_toNat_of_lt h, guard, if_pos h, Option.pure_def,
    Option.bind_eq_bind, Option.bind_some]

theorem getLsbD_bit (n i : Nat) :
    ((1 : BitVec w) <<< n).getLsbD i = (decide (n < w) && decide (n = i)) := by
  have heq : (1 : BitVec w) <<< n = BitVec.twoPow w n := (BitVec.twoPow_eq w n).symm
  rw [heq, BitVec.getLsbD_twoPow]

theorem or_bit_clear (h : Val.getLsbD n = false) :
    (Val ||| (1 : BitVec 64) <<< n) &&& ~~~((1 : BitVec 64) <<< n) = Val := by
  apply BitVec.eq_of_getLsbD_eq
  intro i hi
  rw [BitVec.getLsbD_and, BitVec.getLsbD_or, BitVec.getLsbD_not, getLsbD_bit, decide_eq_true hi]
  by_cases heq : n = i
  · rw [← heq, h]
    simp
  · rw [decide_eq_false heq]
    simp

theorem clear_bit_or (h : Val.getLsbD n = true) :
    Val &&& ~~~((1 : BitVec 64) <<< n) ||| (1 : BitVec 64) <<< n = Val := by
  apply BitVec.eq_of_getLsbD_eq
  intro i hi
  rw [BitVec.getLsbD_or, BitVec.getLsbD_and, BitVec.getLsbD_not, getLsbD_bit, decide_eq_true hi]
  by_cases heq : n = i
  · rw [← heq, h]
    simp
  · rw [decide_eq_false heq]
    simp

theorem or_bit_of_true (h : Val.getLsbD n = true) : Val ||| (1 : BitVec 64) <<< n = Val := by
  apply BitVec.eq_of_getLsbD_eq
  intro i _
  rw [BitVec.getLsbD_or, getLsbD_bit]
  by_cases heq : n = i
  · rw [← heq, h, Bool.true_or]
  · rw [decide_eq_false heq, Bool.and_false, Bool.or_false]

theorem clear_bit_of_false (h : Val.getLsbD n = false) :
    Val &&& ~~~((1 : BitVec 64) <<< n) = Val := by
  apply BitVec.eq_of_getLsbD_eq
  intro i hi
  rw [BitVec.getLsbD_and, BitVec.getLsbD_not, getLsbD_bit, decide_eq_true hi]
  by_cases heq : n = i
  · rw [← heq, h, Bool.false_and]
  · rw [decide_eq_false heq, Bool.and_false, Bool.not_false, Bool.and_true, Bool.and_true]

theorem bit31_keeps (hd : Decomposes STI fuel) (hbig : ¬isInt 32 Val = true)
    (hRes : Computes Res Val) : Keeps (bit31 STI fuel Val Res) Val := by
  have hmask : (0x80000000 : BitVec 64) = (1 : BitVec 64) <<< 31 := by decide
  unfold bit31
  rw [hmask]
  by_cases hneg : Val.toInt < 0
  · simp only [if_pos hneg]
    split
    · next hint =>
        have hbit : Val.getLsbD 31 = false := by
          cases htrue : Val.getLsbD 31 with
          | false => rfl
          | true => exact absurd (or_bit_of_true htrue ▸ hint) hbig
        have hexec := exec_BCLRI (by decide : 31 < 64) (Val ||| (1 : BitVec 64) <<< 31)
        rw [or_bit_clear hbit] at hexec
        exact improve_keeps hd hRes (by decide) hexec
    · exact Keeps.refl hRes
  · simp only [if_neg hneg]
    split
    · next hint =>
        have hbit : Val.getLsbD 31 = true := by
          cases hfalse : Val.getLsbD 31 with
          | true => rfl
          | false => exact absurd (clear_bit_of_false hfalse ▸ hint) hbig
        have hexec := exec_BSETI (by decide : 31 < 64) (Nat.le_refl 64)
          (Val &&& ~~~((1 : BitVec 64) <<< 31))
        rw [clear_bit_or hbit] at hexec
        exact improve_keeps hd hRes (by decide) hexec
    · exact Keeps.refl hRes

theorem getLsbD_clearLowest {x : BitVec w} (hx : x ≠ 0) (j : Nat) :
    (x &&& (x - 1)).getLsbD j = (x.getLsbD j && decide (j ≠ countr_zero x)) := by
  obtain ⟨b, m, ⟨q, hm⟩, hval⟩ := Nat.exists_eq_two_pow_mul_odd (Nat.ne_of_gt (toNat_ne_zero.mp hx))
  have hpow := Nat.two_pow_pos b
  have hsucc : 2 ^ (b + 1) = 2 ^ b * 2 := pow_succ 2 b
  have hsplit : x.toNat = 2 ^ (b + 1) * q + 2 ^ b := by
    rw [hval, hm, hsucc, Nat.mul_add, Nat.mul_one, Nat.mul_assoc]
  have hw : 0 < w := by
    apply Nat.pos_of_ne_zero
    intro hzero
    subst hzero
    exact hx (BitVec.eq_nil x)
  have hpred : (x - 1).toNat = 2 ^ (b + 1) * q + (2 ^ b - 1) := by
    rw [toNat_sub_of_le (by rw [toNat_one hw]; omega), toNat_one hw, hsplit, Nat.add_sub_assoc hpow]
  have hbit : ∀ j, x.getLsbD j = if j < b + 1 then decide (b = j) else q.testBit (j - (b + 1)) := by
    intro j
    rw [← BitVec.testBit_toNat, hsplit, Nat.testBit_two_pow_mul_add _ (by omega),
      Nat.testBit_two_pow]
  have hctz : countr_zero x = b := by
    apply countr_zero_eq
    · intro i hi
      rw [hbit, if_pos (by omega), decide_eq_false (by omega)]
    · rw [hbit, if_pos (Nat.lt_succ_self b), decide_eq_true rfl]
  rw [BitVec.getLsbD_and, ← BitVec.testBit_toNat (x - 1), hpred,
    Nat.testBit_two_pow_mul_add _ (by omega), Nat.testBit_two_pow_sub_one, hbit, hctz]
  by_cases hj : j < b + 1
  · rw [if_pos hj, if_pos hj, ← Bool.decide_and, ← Bool.decide_and, decide_eq_decide]
    omega
  · rw [if_neg hj, if_neg hj, Bool.and_self, decide_eq_true (by omega : j ≠ b), Bool.and_true]

/-- The bits of the high half, in place. -/
def upper (Hi : BitVec 32) : BitVec 64 := Hi.setWidth 64 <<< 32

theorem getLsbD_upper (Hi : BitVec 32) (hi : i < 64) :
    (upper Hi).getLsbD i = (decide (32 ≤ i) && Hi.getLsbD (i - 32)) := by
  unfold upper
  rw [BitVec.getLsbD_shiftLeft, BitVec.getLsbD_setWidth, decide_eq_true hi,
    decide_eq_true (by omega : i - 32 < 64), Bool.true_and, Bool.true_and, ← decide_not]
  congr 1
  rw [decide_eq_decide]
  omega

theorem upper_zero : upper 0 = 0 := by decide

theorem upper_clearLowest {Hi : BitVec 32} (h : Hi ≠ 0) :
    upper Hi = (1 : BitVec 64) <<< (countr_zero Hi + 32) ||| upper (Hi &&& (Hi - 1)) := by
  have hbit := (countr_zero_spec h).1
  have hlt := countr_zero_lt h
  apply BitVec.eq_of_getLsbD_eq
  intro i hi
  rw [BitVec.getLsbD_or, getLsbD_upper _ hi, getLsbD_upper _ hi, getLsbD_bit,
    getLsbD_clearLowest h, decide_eq_true (by omega : countr_zero Hi + 32 < 64), Bool.true_and]
  by_cases heq : countr_zero Hi + 32 = i
  · have hsub : i - 32 = countr_zero Hi := by omega
    rw [decide_eq_true heq, hsub, hbit, decide_eq_true (by omega : 32 ≤ i)]
    rfl
  · rw [decide_eq_false heq, Bool.false_or]
    by_cases hle : 32 ≤ i
    · rw [decide_eq_true (by omega : i - 32 ≠ countr_zero Hi), Bool.and_true]
    · rw [decide_eq_false hle, Bool.false_and, Bool.false_and]

theorem eachBit_spec (Opc : Opcode) (f : BitVec 64 → BitVec 64 → BitVec 64)
    (hzero : ∀ v, f v 0 = v) (hor : ∀ v x y, f (f v x) y = f v (x ||| y)) (hexec : ∀ n < 64, ∀ v,
      Inst.exec { Opc := Opc, Imm := BitVec.ofNat 64 n } v = some (f v ((1 : BitVec 64) <<< n)))
    (n : Nat) (Hi : BitVec 32) (hlow : ∀ i < 32 - n, Hi.getLsbD i = false) (hT : Computes T v) :
    ∃ T', eachBit Opc n Hi T = some T' ∧ Computes T' (f v (upper Hi)) := by
  induction n generalizing Hi T v with
  | zero =>
    have hnull : Hi = 0 := BitVec.eq_of_getLsbD_eq fun i hi =>
      (hlow i hi).trans BitVec.getLsbD_zero.symm
    unfold eachBit
    rw [hnull, upper_zero, hzero]
    exact ⟨T, rfl, hT⟩
  | succ n ih =>
    unfold eachBit
    by_cases hnull : Hi = 0
    · rw [if_neg (not_not.mpr hnull), hnull, upper_zero, hzero]
      exact ⟨T, rfl, hT⟩
    · have hlt := countr_zero_lt hnull
      have hbit := (countr_zero_spec hnull).1
      have hge : 32 - (n + 1) ≤ countr_zero Hi := by
        by_contra hbelow
        rw [hlow _ (Nat.not_le.mp hbelow)] at hbit
        cases hbit
      rw [if_pos hnull, emplace_back_eq (isInt_32_ofNat (by omega)), Option.bind_eq_bind,
        Option.bind_some, upper_clearLowest hnull, ← hor]
      apply ih
      · intro i hi
        rw [getLsbD_clearLowest hnull]
        by_cases heq : i = countr_zero Hi
        · rw [decide_eq_false (not_not.mpr heq), Bool.and_false]
        · rw [(countr_zero_spec hnull).2 i (by omega), Bool.false_and]
      · exact hT.snoc (hexec _ (by omega) v)

theorem getLsbD_signExtend_Lo (Val : BitVec 64) (hi : i < 64) :
    ((Lo_32 Val).signExtend 64).getLsbD i = if i < 32 then Val.getLsbD i else (Lo_32 Val).msb := by
  rw [BitVec.getLsbD_signExtend, decide_eq_true hi, Bool.true_and]
  split
  · next hlow =>
      unfold Lo_32
      rw [BitVec.getLsbD_setWidth, decide_eq_true hlow, Bool.true_and]
  · rfl

theorem getLsbD_Hi (Val : BitVec 64) (hi : i < 64) (hhigh : 32 ≤ i) :
    (Hi_32 Val).getLsbD (i - 32) = Val.getLsbD i := by
  have hsum : 32 + (i - 32) = i := by omega
  unfold Hi_32
  rw [BitVec.getLsbD_setWidth, BitVec.getLsbD_ushiftRight, decide_eq_true (by omega : i - 32 < 32),
    hsum, Bool.true_and]

theorem lo_or_upper (hlo : (Lo_32 Val).msb = false) :
    (Lo_32 Val).signExtend 64 ||| upper (Hi_32 Val) = Val := by
  apply BitVec.eq_of_getLsbD_eq
  intro i hi
  rw [BitVec.getLsbD_or, getLsbD_signExtend_Lo Val hi, getLsbD_upper _ hi, hlo]
  by_cases hlow : i < 32
  · rw [if_pos hlow, decide_eq_false (by omega : ¬32 ≤ i), Bool.false_and, Bool.or_false]
  · rw [if_neg hlow, decide_eq_true (by omega : 32 ≤ i), getLsbD_Hi Val hi (by omega),
      Bool.true_and, Bool.false_or]

theorem lo_and_upper (hlo : (Lo_32 Val).msb = true) :
    (Lo_32 Val).signExtend 64 &&& ~~~upper (~~~Hi_32 Val) = Val := by
  apply BitVec.eq_of_getLsbD_eq
  intro i hi
  rw [BitVec.getLsbD_and, BitVec.getLsbD_not, getLsbD_signExtend_Lo Val hi, getLsbD_upper _ hi,
    hlo, decide_eq_true hi]
  by_cases hlow : i < 32
  · rw [if_pos hlow, decide_eq_false (by omega : ¬32 ≤ i), Bool.false_and]
    exact Bool.and_true _
  · rw [if_neg hlow, decide_eq_true (by omega : 32 ≤ i), BitVec.getLsbD_not,
      getLsbD_Hi Val hi (by omega), decide_eq_true (by omega : i - 32 < 32)]
    simp

theorem upperBits_keeps (hd : Decomposes STI fuel) (hRes : Computes Res Val) :
    Keeps (upperBits STI fuel Val Res) Val := by
  obtain ⟨T, hT, hcomputes⟩ := hd ((Lo_32 Val).signExtend 64)
  have hkeep : ∀ T', Computes T' Val → Computes (if T'.length < Res.length then T' else Res) Val := by
    intro T' hT'
    split
    · exact hT'
    · exact hRes
  unfold upperBits
  dsimp only
  rw [hT, Option.bind_eq_bind, Option.bind_some]
  split
  · next hcond =>
      have hmsb : (Lo_32 Val).msb = false := by
        rw [BitVec.msb_eq_toInt, decide_eq_false_iff_not]
        omega
      obtain ⟨T', hT', hval⟩ := eachBit_spec .BSETI (fun v x => v ||| x)
        (fun v => BitVec.or_zero) (fun v x y => BitVec.or_assoc v x y)
        (fun n hn v => exec_BSETI hn (Nat.le_refl 64) v) 32 (Hi_32 Val)
        (fun i hi => absurd hi (Nat.not_lt_zero i)) hcomputes
      rw [hT', Option.map_some]
      exact Keeps.refl (hkeep T' (lo_or_upper hmsb ▸ hval))
  · split
    · next hcond =>
        have hmsb : (Lo_32 Val).msb = true := by
          rw [BitVec.msb_eq_toInt, decide_eq_true_iff]
          exact hcond.1
        obtain ⟨T', hT', hval⟩ := eachBit_spec .BCLRI (fun v x => v &&& ~~~x)
          (fun v => (congrArg (v &&& ·) BitVec.not_zero).trans BitVec.and_allOnes) (fun v x y => by rw [BitVec.and_assoc, BitVec.not_or])
          (fun n hn v => exec_BCLRI hn v) 32 (~~~Hi_32 Val)
          (fun i hi => absurd hi (Nat.not_lt_zero i)) hcomputes
        rw [hT', Option.map_some]
        exact Keeps.refl (hkeep T' (lo_and_upper hmsb ▸ hval))
    · exact Keeps.refl hRes

theorem singleBits_keeps (hd : Decomposes STI fuel) (hbig : ¬isInt 32 Val = true)
    (hRes : Computes Res Val) : Keeps (singleBits STI fuel Val Res) Val := by
  unfold singleBits
  split
  · obtain ⟨Res', hRes', hcomputes⟩ := bit31_keeps hd hbig hRes
    rw [hRes', Option.bind_eq_bind, Option.bind_some]
    exact upperBits_keeps hd hcomputes
  · exact Keeps.refl hRes

/-! ## Shifted additions -/

theorem sdiv_mul {d : BitVec 64} (hd : 0 < d.toInt) (h : x.srem d = 0) : x.sdiv d * d = x := by
  have hne : d ≠ -1#64 := by
    intro hneg
    rw [hneg] at hd
    exact absurd hd (by decide)
  have hrem : x.toInt.tmod d.toInt = 0 := by
    rw [← BitVec.toInt_srem, h]
    rfl
  apply BitVec.eq_of_toInt_eq
  rw [BitVec.toInt_mul, BitVec.toInt_sdiv_of_ne_or_ne x d (Or.inr hne),
    Int.tdiv_mul_cancel (Int.dvd_of_tmod_eq_zero hrem), BitVec.toInt_bmod_cancel]

/-- A shifted addition of a value to itself. -/
def MultipliesBy (Opc : Opcode) (Div : BitVec 64) : Prop :=
  ∀ x : BitVec 64, Inst.exec { Opc := Opc, Imm := 0 } x = some (x * Div)

theorem shiftLeft_add_self (x : BitVec 64) (k : Nat) :
    x <<< k + x = x * (1#64 <<< k + 1#64) := by
  rw [BitVec.shiftLeft_eq_mul_twoPow, ← BitVec.twoPow_eq, BitVec.mul_add, BitVec.mul_one]

theorem multipliesBy_SH1ADD : MultipliesBy .SH1ADD 3 :=
  fun x => congrArg some (shiftLeft_add_self x 1)

theorem multipliesBy_SH2ADD : MultipliesBy .SH2ADD 5 :=
  fun x => congrArg some (shiftLeft_add_self x 2)

theorem multipliesBy_SH3ADD : MultipliesBy .SH3ADD 9 :=
  fun x => congrArg some (shiftLeft_add_self x 3)

theorem selectDivisor_spec {Div : BitVec 64} (h : selectDivisor x = some (Div, Opc)) :
    MultipliesBy Opc Div ∧ x.sdiv Div * Div = x := by
  unfold selectDivisor at h
  split at h
  · next hthree =>
      cases h
      exact ⟨multipliesBy_SH1ADD, sdiv_mul (by decide) hthree.1⟩
  · split at h
    · next hfive =>
        cases h
        exact ⟨multipliesBy_SH2ADD, sdiv_mul (by decide) hfive.1⟩
    · split at h
      · next hnine =>
          cases h
          exact ⟨multipliesBy_SH3ADD, sdiv_mul (by decide) hnine.1⟩
      · cases h

theorem hi52_toNat (Val : BitVec 64) :
    ((Val + 0x800) &&& ~~~(0xfff : BitVec 64)).toNat =
      (Val.toNat + 2 ^ 11) % 2 ^ 64 / 2 ^ 12 * 2 ^ 12 := by
  have hsplit : (Val + (0x800 : BitVec 64)) &&& ~~~(0xfff : BitVec 64) =
      (Val + (0x800 : BitVec 64)) >>> 12 <<< 12 := by
    have hmask : (0xfff : BitVec 64).toNat = 2 ^ 12 - 1 := rfl
    apply BitVec.eq_of_getLsbD_eq
    intro i hi
    rw [BitVec.getLsbD_and, BitVec.getLsbD_not, BitVec.getLsbD_shiftLeft,
      BitVec.getLsbD_ushiftRight, ← BitVec.testBit_toNat (0xfff : BitVec 64), hmask,
      Nat.testBit_two_pow_sub_one, decide_eq_true hi]
    by_cases hlow : i < 12
    · rw [decide_eq_true hlow]
      exact Bool.and_false _
    · have hsum : 12 + (i - 12) = i := by omega
      rw [decide_eq_false hlow, hsum]
      exact Bool.and_true _
  have h800 : (0x800 : BitVec 64).toNat = 2 ^ 11 := rfl
  rw [hsplit, BitVec.toNat_shiftLeft, BitVec.toNat_ushiftRight, BitVec.toNat_add, h800,
    Nat.shiftRight_eq_div_pow, Nat.shiftLeft_eq]
  omega

theorem hi52_add_lo12 (Val : BitVec 64) :
    ((Val + 0x800) &&& ~~~(0xfff : BitVec 64)) + SignExtend64 12 Val = Val := by
  have hlo := SignExtend64_toNat (by decide : 0 < 12) (by decide) Val
  apply BitVec.eq_of_toNat_eq
  rw [BitVec.toNat_add, hi52_toNat]
  split at hlo
  · omega
  · omega

theorem shiftAdd_keeps (hd : Decomposes STI fuel) (hRes : Computes Res Val) :
    Keeps (shiftAdd STI fuel Val Res) Val := by
  unfold shiftAdd
  split
  · cases hselect : selectDivisor Val with
    | some found =>
      obtain ⟨Div, Opc⟩ := found
      obtain ⟨hmul, hexact⟩ := selectDivisor_spec hselect
      have hexec := hmul (Val.sdiv Div)
      rw [hexact] at hexec
      exact improve_keeps hd hRes (by decide) hexec
    | none =>
      have hsum := hi52_add_lo12 Val
      have hlo := (SignExtend64_12_spec Val).1
      dsimp only
      generalize (Val + 0x800) &&& ~~~(0xfff : BitVec 64) = Hi52 at hsum ⊢
      cases hselect' : selectDivisor Hi52 with
      | none => exact Keeps.refl hRes
      | some found =>
        obtain ⟨Div, Opc⟩ := found
        obtain ⟨hmul, hexact⟩ := selectDivisor_spec hselect'
        -- without a lower part the divisor would have been found before
        have hne : SignExtend64 12 Val ≠ 0 := by
          intro hzero
          rw [hzero] at hsum
          have hsame : Hi52 = Val := (BitVec.add_zero Hi52).symm.trans hsum
          rw [hsame, hselect] at hselect'
          cases hselect'
        obtain ⟨T, hT, hcomputes⟩ := hd (Hi52.sdiv Div)
        have hexec := hmul (Hi52.sdiv Div)
        rw [hexact] at hexec
        simp only [guard, if_pos hne, Option.pure_def, Option.bind_eq_bind, Option.bind_some, hT]
        split
        · rw [emplace_back_eq (by decide), Option.bind_some]
          apply emplace_back_keeps (hcomputes.snoc hexec) (isInt_32_of_12 hlo)
          rw [exec_ADDI hlo, BitVec.setWidth_eq, hsum]
        · exact Keeps.refl hRes
  · exact Keeps.refl hRes

end SmlnjLlvm.RISCV
