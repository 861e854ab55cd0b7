import SmlnjLlvm.RISCV.Rewrites

/-!
# What a sequence leaves

The rewrites in their order, and the sequences whose result is added to a shift
of itself.
-/

namespace SmlnjLlvm.RISCV

open Support Words

variable {STI : MCSubtargetInfo} {fuel : Nat} {Val : BitVec 64} {Res : InstSeq}

theorem isInt_12_of_high {x : BitVec 64} (h : ∀ i, 11 ≤ i → i < 64 → x.getLsbD i = true) :
    isInt 12 x = true := by
  have hnot : (~~~x).toNat < 2 ^ 11 := by
    apply Nat.lt_pow_two_of_testBit
    intro i hi
    rw [BitVec.testBit_toNat, BitVec.getLsbD_not]
    by_cases hlt : i < 64
    · rw [h i hi hlt, Bool.not_true, Bool.and_false]
    · rw [decide_eq_false hlt, Bool.false_and]
  rw [BitVec.toNat_not] at hnot
  rw [isInt_12_iff]
  omega

theorem getLsbD_of_lt_countr_one {w : Nat} {x : BitVec w} {i : Nat} (hi : i < countr_one x)
    (hlt : i < w) : x.getLsbD i = true := by
  have hbit : (~~~x).getLsbD i = false := BitVec.getLsbD_false_of_lt_ctz hi
  rw [BitVec.getLsbD_not, decide_eq_true hlt, Bool.true_and, Bool.not_eq_false'] at hbit
  exact hbit

theorem getLsbD_of_countl_one {w : Nat} {x : BitVec w} {i : Nat} (hi : w ≤ i + countl_one x)
    (hlt : i < w) : x.getLsbD i = true := by
  have hbit : (~~~x).getLsbD i = false := by
    by_cases hzero : ~~~x = 0
    · rw [hzero]
      exact BitVec.getLsbD_zero
    · apply (countl_zero_spec (by omega) hzero).2
      change w ≤ i + countl_zero (~~~x) at hi
      have hcount := countl_zero_lt hzero
      omega
  rw [BitVec.getLsbD_not, decide_eq_true hlt, Bool.true_and, Bool.not_eq_false'] at hbit
  exact hbit

theorem extractRotateInfo_spec (h : extractRotateInfo Val ≠ 0) :
    extractRotateInfo Val < 64 ∧ isInt 12 (rotl Val (extractRotateInfo Val)) = true := by
  unfold extractRotateInfo at h ⊢
  dsimp only at h ⊢
  split
  · next hcond =>
      refine ⟨by omega, isInt_12_of_high ?_⟩
      intro i hi hlt
      have hmod : 64 - (64 - countr_one Val) % 64 = countr_one Val := by omega
      rw [getLsbD_rotl _ _ hlt, hmod]
      by_cases hwrap : i + countr_one Val < 64
      · rw [Nat.mod_eq_of_lt hwrap]
        exact getLsbD_of_countl_one (by omega) hwrap
      · have heq : (i + countr_one Val) % 64 = i + countr_one Val - 64 := by omega
        rw [heq]
        exact getLsbD_of_lt_countr_one (by omega) (by omega)
  · next hcond =>
      rw [if_neg hcond] at h
      split
      · next hhalves =>
          refine ⟨by omega, isInt_12_of_high ?_⟩
          intro i hi hlt
          have hmod : 64 - (32 - countr_one (Hi_32 Val)) % 64 = 32 + countr_one (Hi_32 Val) := by
            omega
          have hwide : countl_one (Lo_32 Val) ≤ 32 := countl_zero_le _
          have heq : (i + (32 + countr_one (Hi_32 Val))) % 64 =
              i + countr_one (Hi_32 Val) - 32 := by omega
          rw [getLsbD_rotl _ _ hlt, hmod, heq]
          by_cases hlow : i + countr_one (Hi_32 Val) - 32 < 32
          · have hbit := getLsbD_of_countl_one (x := Lo_32 Val)
              (i := i + countr_one (Hi_32 Val) - 32) (by omega) hlow
            unfold Lo_32 at hbit
            rw [BitVec.getLsbD_setWidth, decide_eq_true hlow, Bool.true_and] at hbit
            exact hbit
          · rw [← getLsbD_Hi Val (by omega) (by omega)]
            exact getLsbD_of_lt_countr_one (by omega) (by omega)
      · next hnot =>
          rw [if_neg hnot] at h
          exact absurd rfl h

theorem rotateRight_rotl {n : Nat} (hpos : 0 < n) (hlt : n < 64) (x : BitVec 64) :
    (rotl x n).rotateRight n = x := by
  have hback := rotr_rotl x n
  unfold rotr at hback
  rw [Nat.mod_eq_of_lt hlt, if_neg (Nat.ne_of_gt hpos)] at hback
  rw [BitVec.rotateRight_def, Nat.mod_eq_of_lt hlt]
  exact hback

theorem exec_rotate {Opc : Opcode} (hOpc : Opc = .RORI ∨ Opc = .TH_SRRI) {n : Nat} (h : n < 64)
    (rs : BitVec 64) :
    Inst.exec { Opc := Opc, Imm := BitVec.ofNat 64 n } rs = some (rs.rotateRight n) := by
  rcases hOpc with hrori | hsrri
  · rw [hrori]
    change Opcode.result .RORI rs 0 _ = _
    simp only [Opcode.result, ofNat_toNat_of_lt h, guard, if_pos h, Option.pure_def,
      Option.bind_eq_bind, Option.bind_some]
  · rw [hsrri]
    change Opcode.result .TH_SRRI rs 0 _ = _
    simp only [Opcode.result, ofNat_toNat_of_lt h, guard, if_pos h, Option.pure_def,
      Option.bind_eq_bind, Option.bind_some]

theorem rotate_keeps (hRes : Computes Res Val) : Keeps (rotate STI Val Res) Val := by
  unfold rotate
  split
  · dsimp only
    split
    · next hne =>
        obtain ⟨hlt, himm⟩ := extractRotateInfo_spec hne
        have hback := rotateRight_rotl (Nat.pos_of_ne_zero hne) hlt Val
        generalize extractRotateInfo Val = Rotate at hne hlt himm hback ⊢
        have hfirst := Computes.nil.snoc (exec_ADDI himm (0 : BitVec 64))
        simp only [guard, if_pos himm, Option.pure_def, Option.bind_eq_bind, Option.bind_some]
        rw [emplace_back_eq (isInt_32_of_12 himm), Option.bind_some]
        apply emplace_back_keeps hfirst (isInt_32_ofNat (by omega))
        rw [BitVec.setWidth_eq]
        refine (congrArg (Inst.exec _) (BitVec.zero_add _)).trans ?_
        rw [exec_rotate ?_ hlt, hback]
        split
        · exact Or.inl rfl
        · exact Or.inr rfl
    · exact Keeps.refl hRes
  · exact Keeps.refl hRes

theorem generateInstSeq_wide (h64 : STI.Feature64Bit = true) (hfuel : 4 ≤ fuel)
    (hbig : ¬isInt 32 Val = true) : Keeps (generateInstSeq STI fuel Val) Val := by
  have hd := decomposes h64 hfuel
  obtain ⟨R₀, hR₀, hc₀⟩ := hd Val
  obtain ⟨R₁, hR₁, hc₁⟩ := trailingZeros_keeps hd hc₀
  obtain ⟨R₂, hR₂, hc₂⟩ := adjustLow_keeps hd hc₁
  obtain ⟨R₃, hR₃, hc₃⟩ := leadingZeros_keeps hd hc₂
  obtain ⟨R₄, hR₄, hc₄⟩ := invert_keeps hd hbig hc₃
  obtain ⟨R₅, hR₅, hc₅⟩ := pack_keeps hd hc₄
  obtain ⟨R₆, hR₆, hc₆⟩ := singleBits_keeps hd hbig hc₅
  obtain ⟨R₇, hR₇, hc₇⟩ := shiftAdd_keeps hd hc₆
  unfold generateInstSeq
  simp only [hR₀, hR₁, Option.pure_def, Option.bind_eq_bind, Option.bind_some]
  split
  · exact Keeps.refl hc₁
  · simp only [guard, if_pos h64, Option.pure_def, Option.bind_some, hR₂, hR₃, hR₄, hR₅, hR₆, hR₇]
    exact rotate_keeps hc₇

theorem generateInstSeqImpl_int12 (STI : MCSubtargetInfo) (fuel : Nat) (h : isInt 12 Val = true) :
    ∃ I, generateInstSeqImpl STI (fuel + 1) Val = some [I] := by
  have h32 := isInt_32_of_12 h
  have hnull : (Val + 0x800).sshiftRight 12 &&& 0xFFFFF = 0 := by
    apply BitVec.eq_of_toNat_eq
    rw [hi20_toNat]
    rw [isInt_12_iff] at h
    change _ = 0
    omega
  unfold generateInstSeqImpl
  split
  · next hbit =>
      rcases hbit.2.2 with hnot | heq
      · exact absurd h32 hnot
      · rw [heq] at h
        exact absurd h (by decide)
  · dsimp only
    rw [hnull, if_neg (not_not.mpr rfl), Option.bind_eq_bind, Option.bind_some,
      if_pos (Or.inr rfl), emplace_back_eq (isInt_32_of_12 (SignExtend64_12_spec Val).1)]
    exact ⟨_, rfl⟩

theorem isInt_32_sshiftRight (h : isInt 32 Val = true) (s : Nat) :
    isInt 32 (Val.sshiftRight s) = true := by
  have hpos := int_two_pow_pos s
  obtain ⟨hlo, hhi⟩ := (isInt_succ_iff 31 Val).mp h
  rw [isInt_succ_iff 31, BitVec.toInt_sshiftRight, Int.shiftRight_eq_div_pow]
  push_cast
  generalize (2 : Int) ^ s = P at hpos ⊢
  constructor
  · apply Int.le_ediv_of_mul_le hpos
    omega
  · apply Int.ediv_lt_of_lt_mul hpos
    omega

theorem generateInstSeq_narrow (hfuel : 4 ≤ fuel) (h : isInt 32 Val = true) :
    ∃ Res, generateInstSeq STI fuel Val = some Res ∧ Computes Res (Val.setWidth STI.XLen) := by
  obtain ⟨n, rfl⟩ := Nat.exists_eq_add_of_le' hfuel
  have hw : STI.XLen = 32 ∨ STI.XLen = 64 := by
    have hcases := XLen_cases STI
    omega
  obtain ⟨R₀, hR₀, hlen, hc₀⟩ := generateInstSeqImpl_int32 STI (n + 3) h
  have htrailing : ∃ R, trailingZeros STI (n + 4) Val R₀ = some R ∧ R.length ≤ 2 ∧
      Computes R (Val.setWidth STI.XLen) := by
    unfold trailingZeros
    split
    · next hcond =>
        have hlt := countr_zero_lt_of_low hcond.1
        have hshifted := isInt_32_sshiftRight h (countr_zero Val)
        obtain ⟨T, hT, hlenT, hcomputes⟩ := generateInstSeqImpl_int32 STI (n + 3) hshifted
        have hexec := trailing_exec hcond.1 hw
        dsimp only
        rw [hT, Option.bind_eq_bind, Option.bind_some]
        split
        · next himprove =>
            rw [emplace_back_eq (isInt_32_ofNat (by omega))]
            refine ⟨_, rfl, ?_, hcomputes.snoc hexec⟩
            rw [List.length_append, List.length_singleton]
            rcases himprove with hshorter | hcompressible
            · omega
            · rw [Bool.and_eq_true] at hcompressible
              have hsmall : isInt 12 (Val.sshiftRight (countr_zero Val)) = true :=
                isInt_mono (by decide : 5 ≤ 11) hcompressible.1
              obtain ⟨I, hI⟩ := generateInstSeqImpl_int12 STI (n + 3) hsmall
              have hone : T = [I] := Option.some.inj (hT.symm.trans hI)
              rw [hone]
              exact Nat.le_refl 2
        · exact ⟨R₀, rfl, hlen, hc₀⟩
    · exact ⟨R₀, rfl, hlen, hc₀⟩
  obtain ⟨R, hR, hlenR, hcomputes⟩ := htrailing
  unfold generateInstSeq
  simp only [hR₀, hR, Option.pure_def, Option.bind_eq_bind, Option.bind_some, if_pos hlenR]
  exact ⟨R, rfl, hcomputes⟩

theorem generateInstSeq_fuel (STI : MCSubtargetInfo) (Val : BitVec 64) (h : 4 ≤ fuel) :
    generateInstSeq STI fuel Val = generateInstSeq STI 4 Val := by
  simp only [generateInstSeq, trailingZeros, adjustLow, leadingZeros, invert,
    generateInstSeqLeadingZeros, pack, singleBits, bit31, upperBits, shiftAdd,
    generateInstSeqImpl_fuel STI h]

theorem generateInstSeq_spec (hVal : STI.Feature64Bit = true ∨ isInt 32 Val = true)
    (hfuel : 4 ≤ fuel) :
    ∃ Res, generateInstSeq STI fuel Val = some Res ∧ Computes Res (Val.setWidth STI.XLen) := by
  by_cases h32 : isInt 32 Val = true
  · exact generateInstSeq_narrow hfuel h32
  · rcases hVal with h64 | hint
    · obtain ⟨Res, hRes, hcomputes⟩ := generateInstSeq_wide h64 hfuel h32
      rw [XLen_eq_64 h64, BitVec.setWidth_eq]
      exact ⟨Res, hRes, hcomputes⟩
    · exact absurd hint h32

/-- What an addition makes of a value and a shift of it. -/
def Adds (r : InstSeq × Nat × Opcode) (Val : BitVec 64) : Prop :=
  r.1 ≠ [] → ∃ X : BitVec 64, execAll r.1 (0 : BitVec 64) = some X ∧ r.2.1 < 64 ∧
    r.2.2.result X (X <<< r.2.1) 0 = some Val

theorem sub_lo32_mod (Val : BitVec 64) : (Val - SignExtend64 32 Val).toNat % 2 ^ 32 = 0 := by
  have hlo := SignExtend64_32_spec Val
  rw [BitVec.toNat_sub]
  omega

theorem addUW_eq (h : Lo_32 Val = Hi_32 Val) :
    zextW (SignExtend64 32 Val) + SignExtend64 32 Val <<< 32 = Val := by
  have hlow := (SignExtend64_32_spec Val).2
  have hhalves := congrArg BitVec.toNat h
  unfold Lo_32 Hi_32 at hhalves
  rw [BitVec.toNat_setWidth, BitVec.toNat_setWidth, toNat_shr] at hhalves
  apply BitVec.eq_of_toNat_eq
  rw [BitVec.toNat_add, zextW_toNat, toNat_shl]
  omega

theorem generateTwoRegInstSeq_spec (h64 : STI.Feature64Bit = true) (hfuel : 4 ≤ fuel)
    (hbig : ¬isInt 32 Val = true) :
    ∃ r, generateTwoRegInstSeq STI fuel Val = some r ∧ Adds r Val := by
  obtain ⟨hint, hlow⟩ := SignExtend64_32_spec Val
  have hmod := sub_lo32_mod Val
  have hback : SignExtend64 32 Val + (Val - SignExtend64 32 Val) = Val := by
    rw [BitVec.add_comm, BitVec.sub_add_cancel]
  have hboth : Lo_32 Val = Hi_32 Val →
      zextW (SignExtend64 32 Val) + SignExtend64 32 Val <<< 32 = Val := addUW_eq
  have htmp : Val - SignExtend64 32 Val ≠ 0 := by
    intro hzero
    rw [hzero] at hback
    have hsame : SignExtend64 32 Val = Val := (BitVec.add_zero _).symm.trans hback
    rw [hsame] at hint
    exact hbig hint
  unfold generateTwoRegInstSeq
  generalize SignExtend64 32 Val = LoVal at hint hlow hmod hback hboth htmp ⊢
  by_cases hzero : LoVal = 0
  · rw [if_pos hzero]
    exact ⟨_, rfl, fun hne => absurd rfl hne⟩
  · rw [if_neg hzero]
    generalize Val - LoVal = Tmp at hmod hback htmp ⊢
    have hTzLo : countr_zero LoVal < 32 := by
      by_contra hge
      apply hzero
      apply eq_of_isInt_32 hint (by decide)
      exact mod_of_low_bits fun i hi => (countr_zero_spec hzero).2 i (by omega)
    have hTzHi := le_countr_zero htmp hmod
    have hTzHi' := countr_zero_lt htmp
    obtain ⟨Res, hRes, hcomputes⟩ : ∃ Res, generateInstSeq STI fuel LoVal = some Res ∧
        Computes Res (LoVal.setWidth STI.XLen) := generateInstSeq_spec (Or.inl h64) hfuel
    rw [XLen_eq_64 h64, BitVec.setWidth_eq] at hcomputes
    simp only [guard, if_pos htmp, if_pos (And.intro hTzLo hTzHi), Option.pure_def,
      Option.bind_eq_bind, Option.bind_some, hRes]
    split
    · next hshift =>
        refine ⟨_, rfl, fun _ => ⟨LoVal, hcomputes, by dsimp only; omega, ?_⟩⟩
        rw [← hshift]
        exact congrArg some hback
    · split
      · next hhalves =>
          refine ⟨_, rfl, fun _ => ⟨LoVal, hcomputes, Nat.lt_of_sub_eq_succ rfl, ?_⟩⟩
          exact congrArg some (hboth hhalves.2)
      · exact ⟨_, rfl, fun hne => absurd rfl hne⟩

/--
A sequence is generated for every value of the register, whatever the features,
by a recursion of bounded depth, and leaves the value. Where a sequence for two
registers is generated, the addition of its result and the shift gives the
value.
-/
theorem generateInstSeq_exact (STI : MCSubtargetInfo) (Val : BitVec 64)
    (hVal : STI.Feature64Bit = true ∨ isInt 32 Val = true) :
    (∃ Res, (∀ fuel, 4 ≤ fuel → generateInstSeq STI fuel Val = some Res) ∧
      execAll Res (0 : BitVec STI.XLen) = some (Val.setWidth STI.XLen)) ∧
    (STI.Feature64Bit = true → ¬isInt 32 Val = true →
      ∃ r, (∀ fuel, 4 ≤ fuel → generateTwoRegInstSeq STI fuel Val = some r) ∧ Adds r Val) := by
  constructor
  · obtain ⟨Res, hRes, hcomputes⟩ := generateInstSeq_spec hVal (Nat.le_refl 4)
    refine ⟨Res, ?_, hcomputes⟩
    intro fuel hfuel
    rw [generateInstSeq_fuel STI Val hfuel, hRes]
  · intro h64 hbig
    obtain ⟨r, hr, hadds⟩ := generateTwoRegInstSeq_spec h64 (Nat.le_refl 4) hbig
    refine ⟨r, ?_, hadds⟩
    intro fuel hfuel
    rw [← hr]
    unfold generateTwoRegInstSeq
    simp only [generateInstSeq_fuel STI _ hfuel]

/-- A value that takes four turns of the recursion. -/
theorem generateInstSeq_exact_eight :
    ∃ Res, generateInstSeq ⟨true, false, false, false, false, false, false⟩ 4 0x123456789abcdef0 =
        some Res ∧ Res.length = 8 ∧ execAll Res (0 : BitVec 64) = some 0x123456789abcdef0 := by
  obtain ⟨⟨Res, hRes, hexec⟩, _⟩ := generateInstSeq_exact
    ⟨true, false, false, false, false, false, false⟩ 0x123456789abcdef0 (Or.inl rfl)
  have hlength : (generateInstSeq ⟨true, false, false, false, false, false, false⟩ 4
      0x123456789abcdef0).map List.length = some 8 := by
    decide +kernel
  rw [hRes 4 (Nat.le_refl 4)] at hlength ⊢
  exact ⟨Res, rfl, Option.some.inj hlength, hexec⟩

end SmlnjLlvm.RISCV
