import SmlnjLlvm.RISCV.MatInt

/-!
# The decomposition of an integer

The recursion ends after four turns at most: each one takes at least eleven
bits off a value of more than 32. What it generates leaves the value.
-/

namespace SmlnjLlvm.RISCV

open Support Words

variable {w : Nat}

variable {Val imm x : BitVec 64} {m n : Nat}

theorem exec_ADDI (h : isInt 12 imm = true) (rs : BitVec w) :
    Inst.exec { Opc := .ADDI, Imm := imm } rs = some (rs + imm.setWidth w) := by
  change Opcode.result .ADDI rs 0 imm = _
  simp only [Opcode.result, guard, if_pos h, Option.pure_def, Option.bind_eq_bind,
    Option.bind_some]

theorem exec_ADDIW (h : isInt 12 imm = true) (rs : BitVec 64) :
    Inst.exec { Opc := .ADDIW, Imm := imm } rs = some (sextW (rs + imm)) := by
  change Opcode.result .ADDIW rs 0 imm = _
  simp only [Opcode.result, guard, true_and, if_pos h, Option.pure_def, Option.bind_eq_bind,
    Option.bind_some, BitVec.setWidth_eq]

theorem exec_LUI (h : imm.toNat < 2 ^ 20) (rs : BitVec w) :
    Inst.exec { Opc := .LUI, Imm := imm } rs = some (sextW (imm.setWidth w <<< 12)) := by
  change Opcode.result .LUI 0 0 imm = _
  simp only [Opcode.result, guard, if_pos h, Option.pure_def, Option.bind_eq_bind,
    Option.bind_some]

theorem ofNat_toNat_of_lt (h : n < 64) : (BitVec.ofNat 64 n).toNat = n := by
  rw [BitVec.toNat_ofNat, Nat.mod_eq_of_lt (by omega)]

theorem isInt_32_ofNat (h : n < 2 ^ 31) : isInt 32 (BitVec.ofNat 64 n) = true := by
  rw [isInt_32_iff, BitVec.toNat_ofNat]
  omega

theorem exec_SLLI (h : n < w) (hw : w ≤ 64) (rs : BitVec w) :
    Inst.exec { Opc := .SLLI, Imm := BitVec.ofNat 64 n } rs = some (rs <<< n) := by
  change Opcode.result .SLLI rs 0 _ = _
  simp only [Opcode.result, ofNat_toNat_of_lt (Nat.lt_of_lt_of_le h hw), guard, if_pos h,
    Option.pure_def, Option.bind_eq_bind, Option.bind_some]

theorem exec_SLLI_UW (h : n < 64) (rs : BitVec 64) :
    Inst.exec { Opc := .SLLI_UW, Imm := BitVec.ofNat 64 n } rs = some (zextW rs <<< n) := by
  change Opcode.result .SLLI_UW rs 0 _ = _
  simp only [Opcode.result, ofNat_toNat_of_lt h, guard, true_and, if_pos h, Option.pure_def,
    Option.bind_eq_bind, Option.bind_some]

theorem exec_BSETI (h : n < w) (hw : w ≤ 64) (rs : BitVec w) :
    Inst.exec { Opc := .BSETI, Imm := BitVec.ofNat 64 n } rs =
      some (rs ||| (1 : BitVec w) <<< n) := by
  change Opcode.result .BSETI rs 0 _ = _
  simp only [Opcode.result, ofNat_toNat_of_lt (Nat.lt_of_lt_of_le h hw), guard, if_pos h,
    Option.pure_def, Option.bind_eq_bind, Option.bind_some]

theorem sextW_spec (x : BitVec 64) :
    isInt 32 (sextW x) = true ∧ (sextW x).toNat % 2 ^ 32 = x.toNat % 2 ^ 32 := by
  have heq : sextW x = SignExtend64 32 x := (SignExtend64_eq (by decide) (by decide) x).symm
  rw [heq]
  exact SignExtend64_32_spec x

theorem sextW_32 (x : BitVec 32) : sextW x = x := by
  unfold sextW
  rw [BitVec.setWidth_eq, BitVec.signExtend_eq]

theorem zextW_toNat (x : BitVec 64) : (zextW x).toNat = x.toNat % 2 ^ 32 := by
  unfold zextW
  rw [BitVec.toNat_setWidth, BitVec.toNat_setWidth]
  omega

/-! ## Integers of 32 bits -/

theorem hi20_toNat (Val : BitVec 64) :
    ((Val + 0x800).sshiftRight 12 &&& 0xFFFFF).toNat =
      (Val.toNat + 2 ^ 11) % 2 ^ 64 / 2 ^ 12 % 2 ^ 20 := by
  have hmask : (0xFFFFF : BitVec 64).toNat = 2 ^ 20 - 1 := rfl
  have hsame : (Val + 0x800).sshiftRight 12 &&& (0xFFFFF : BitVec 64) =
      (Val + 0x800) >>> 12 &&& (0xFFFFF : BitVec 64) := by
    apply BitVec.eq_of_getLsbD_eq
    intro i hi
    have hbit : (0xFFFFF : BitVec 64).getLsbD i = decide (i < 20) := by
      rw [← BitVec.testBit_toNat, hmask, Nat.testBit_two_pow_sub_one]
    rw [BitVec.getLsbD_and, BitVec.getLsbD_and, BitVec.getLsbD_sshiftRight,
      BitVec.getLsbD_ushiftRight, hbit]
    by_cases hlow : i < 20
    · rw [if_pos (by omega : 12 + i < 64), decide_eq_false (by omega : ¬64 ≤ i)]
      rfl
    · rw [decide_eq_false hlow, Bool.and_false, Bool.and_false]
  rw [hsame, BitVec.toNat_and, BitVec.toNat_ushiftRight, hmask, Nat.and_two_pow_sub_one_eq_mod,
    Nat.shiftRight_eq_div_pow, BitVec.toNat_add]
  rfl

theorem hi20_lt (Val : BitVec 64) : ((Val + 0x800).sshiftRight 12 &&& 0xFFFFF).toNat < 2 ^ 20 := by
  rw [hi20_toNat]
  exact Nat.mod_lt _ (by decide)

theorem hi20_lo12 (Val : BitVec 64) :
    (((Val + 0x800).sshiftRight 12 &&& 0xFFFFF).toNat * 2 ^ 12 + (SignExtend64 12 Val).toNat) %
      2 ^ 32 = Val.toNat % 2 ^ 32 := by
  have hlo := SignExtend64_toNat (by decide : 0 < 12) (by decide) Val
  rw [hi20_toNat]
  split at hlo
  · omega
  · omega

theorem lo12_eq_of_hi20 (h : isInt 32 Val = true)
    (hzero : (Val + 0x800).sshiftRight 12 &&& 0xFFFFF = 0) : SignExtend64 12 Val = Val := by
  have hhi := hi20_toNat Val
  have hlo := SignExtend64_toNat (by decide : 0 < 12) (by decide) Val
  rw [hzero] at hhi
  change 0 = _ at hhi
  rw [isInt_32_iff] at h
  apply BitVec.eq_of_toNat_eq
  split at hlo
  · omega
  · omega

theorem lui_toNat_32 (H : BitVec 64) :
    (sextW (H.setWidth 32 <<< 12)).toNat = H.toNat * 2 ^ 12 % 2 ^ 32 := by
  rw [sextW_32, BitVec.toNat_shiftLeft, BitVec.toNat_setWidth, Nat.shiftLeft_eq]
  omega

theorem lui_toNat_64 (H : BitVec 64) :
    (sextW (H.setWidth 64 <<< 12)).toNat % 2 ^ 32 = H.toNat * 2 ^ 12 % 2 ^ 32 := by
  rw [(sextW_spec _).2, BitVec.toNat_shiftLeft, BitVec.toNat_setWidth, Nat.shiftLeft_eq]
  omega

theorem lui_spec (hw : w = 32 ∨ w = 64) {H : BitVec 64} (hVal : isInt 32 Val = true)
    (hH : H.toNat < 2 ^ 20) (hsum : H.toNat * 2 ^ 12 % 2 ^ 32 = Val.toNat % 2 ^ 32) :
    Computes [{ Opc := .LUI, Imm := H }] (Val.setWidth w) := by
  have hcomputes := (Computes.nil (w := w)).snoc (exec_LUI hH 0)
  have hval : sextW (H.setWidth w <<< 12) = Val.setWidth w := by
    rcases hw with hsmall | hlarge
    · subst hsmall
      apply BitVec.eq_of_toNat_eq
      rw [lui_toNat_32, hsum, BitVec.toNat_setWidth]
    · subst hlarge
      rw [BitVec.setWidth_eq Val]
      exact eq_of_isInt_32 (sextW_spec _).1 hVal ((lui_toNat_64 H).trans hsum)
  rw [hval] at hcomputes
  exact hcomputes

theorem luiAddi_spec (hw : w = 32 ∨ w = 64) {H L : BitVec 64} (hVal : isInt 32 Val = true)
    (hH : H.toNat < 2 ^ 20) (hL : isInt 12 L = true)
    (hsum : (H.toNat * 2 ^ 12 + L.toNat) % 2 ^ 32 = Val.toNat % 2 ^ 32) :
    Computes [{ Opc := .LUI, Imm := H }, { Opc := if w = 64 then .ADDIW else .ADDI, Imm := L }]
      (Val.setWidth w) := by
  have hlui := (Computes.nil (w := w)).snoc (exec_LUI hH 0)
  rcases hw with hsmall | hlarge
  · subst hsmall
    have hcomputes := hlui.snoc (exec_ADDI hL _)
    have hval : sextW (H.setWidth 32 <<< 12) + L.setWidth 32 = Val.setWidth 32 := by
      apply BitVec.eq_of_toNat_eq
      rw [BitVec.toNat_add, lui_toNat_32, BitVec.toNat_setWidth, BitVec.toNat_setWidth, ← hsum]
      omega
    rw [hval] at hcomputes
    exact hcomputes
  · subst hlarge
    have hcomputes := hlui.snoc (exec_ADDIW hL _)
    have hval : sextW (sextW (H.setWidth 64 <<< 12) + L) = Val.setWidth 64 := by
      obtain ⟨hrange, hlow⟩ := sextW_spec (sextW (H.setWidth 64 <<< 12) + L)
      have hupper := lui_toNat_64 H
      rw [BitVec.setWidth_eq Val]
      apply eq_of_isInt_32 hrange hVal
      rw [hlow, BitVec.toNat_add, ← hsum]
      omega
    rw [hval] at hcomputes
    exact hcomputes

theorem bseti_spec (hw : w = 32 ∨ w = 64) (hpow : isPowerOf2_64 Val = true)
    (hlt : Log2_64 Val < w) :
    ∃ Res, emplace_back .BSETI (BitVec.ofNat 64 (Log2_64 Val)) [] = some Res ∧
      Res.length ≤ 2 ∧ Computes Res (Val.setWidth w) := by
  obtain ⟨_, heq⟩ := isPowerOf2_64_spec hpow
  have hval : Val.setWidth w = 0 ||| (1 : BitVec w) <<< Log2_64 Val := by
    have hbound : 2 ^ Log2_64 Val < 2 ^ w := Nat.pow_lt_pow_right (by decide) hlt
    have hbound' : 2 ^ w ≤ 2 ^ 64 := Nat.pow_le_pow_right (by decide) (by omega)
    refine Eq.trans ?_ BitVec.zero_or.symm
    apply BitVec.eq_of_toNat_eq
    rw [BitVec.toNat_setWidth, BitVec.toNat_shiftLeft, toNat_one (by omega), Nat.shiftLeft_eq,
      Nat.one_mul]
    refine congrArg (· % 2 ^ w) ((congrArg BitVec.toNat heq).trans ?_)
    rw [BitVec.toNat_shiftLeft, toNat_one (by decide), Nat.shiftLeft_eq, Nat.one_mul,
      Nat.mod_eq_of_lt (by omega)]
  rw [emplace_back_eq (isInt_32_ofNat (by omega))]
  refine ⟨_, rfl, Nat.le_succ 1, ?_⟩
  rw [hval]
  exact Computes.nil.snoc (exec_BSETI hlt (by omega) 0)

theorem XLen_cases (STI : MCSubtargetInfo) :
    STI.Feature64Bit = false ∧ STI.XLen = 32 ∨ STI.Feature64Bit = true ∧ STI.XLen = 64 := by
  unfold MCSubtargetInfo.XLen
  cases STI.Feature64Bit with
  | false => exact Or.inl ⟨rfl, rfl⟩
  | true => exact Or.inr ⟨rfl, rfl⟩

theorem generateInstSeqImpl_int32 (STI : MCSubtargetInfo) (fuel : Nat) (h : isInt 32 Val = true) :
    ∃ Res, generateInstSeqImpl STI (fuel + 1) Val = some Res ∧ Res.length ≤ 2 ∧
      Computes Res (Val.setWidth STI.XLen) := by
  have hcases := XLen_cases STI
  have hw : STI.XLen = 32 ∨ STI.XLen = 64 := by omega
  unfold generateInstSeqImpl
  by_cases hbit : STI.FeatureStdExtZbs ∧ isPowerOf2_64 Val ∧ (¬isInt 32 Val ∨ Val = 0x800)
  · rw [if_pos hbit]
    have hlog : Log2_64 Val = 11 := by
      rcases hbit.2.2 with hnot | heq
      · exact absurd h hnot
      · rw [heq]
        decide +kernel
    exact bseti_spec hw hbit.2.1 (by omega)
  · rw [if_neg hbit, if_pos h]
    obtain ⟨hlo12, _⟩ := SignExtend64_12_spec Val
    have hsum := hi20_lo12 Val
    have hzero := lo12_eq_of_hi20 h
    have hlt := hi20_lt Val
    dsimp only
    generalize (Val + 0x800).sshiftRight 12 &&& 0xFFFFF = Hi20 at hsum hzero hlt ⊢
    generalize SignExtend64 12 Val = Lo12 at hlo12 hsum hzero ⊢
    by_cases hhi : Hi20 = 0
    · rw [if_neg (not_not.mpr hhi), if_neg (fun hboth => hboth.2 hhi), Option.bind_eq_bind,
        Option.bind_some, if_pos (Or.inr hhi), emplace_back_eq (isInt_32_of_12 hlo12)]
      refine ⟨_, rfl, Nat.le_succ 1, ?_⟩
      have hcomputes := Computes.nil.snoc (exec_ADDI hlo12 (0 : BitVec STI.XLen))
      rw [hzero hhi] at hcomputes ⊢
      exact hcomputes.trans (congrArg some (BitVec.zero_add _))
    · have hisInt : isInt 32 Hi20 = true := by
        rw [isInt_32_iff]
        omega
      rw [if_pos hhi, emplace_back_eq hisInt, Option.bind_eq_bind, Option.bind_some]
      by_cases hlo : Lo12 = 0
      · rw [if_neg (by
          intro hor
          rcases hor with hne | heq
          · exact hne hlo
          · exact hhi heq)]
        refine ⟨_, rfl, Nat.le_succ 1, lui_spec hw h hlt ?_⟩
        have hnull : (0 : BitVec 64).toNat = 0 := rfl
        rw [hlo, hnull, Nat.add_zero] at hsum
        exact hsum
      · rw [if_pos (Or.inl hlo), emplace_back_eq (isInt_32_of_12 hlo12)]
        refine ⟨_, rfl, Nat.le_refl 2, ?_⟩
        have hopc : (if STI.Feature64Bit = true ∧ Hi20 ≠ 0 then Opcode.ADDIW else .ADDI) =
            if STI.XLen = 64 then .ADDIW else .ADDI := by
          rcases hcases with hsmall | hlarge
          · rw [hsmall.1, hsmall.2]
            rfl
          · rw [hlarge.2, if_pos ⟨hlarge.1, hhi⟩]
            rfl
        rw [hopc]
        exact luiAddi_spec hw h hlt hlo12 hsum

/-! ## The rest of a value -/

theorem or_upperOnes_toNat (h : isUInt 32 x = true) :
    (x ||| upperOnes).toNat = x.toNat + (2 ^ 64 - 2 ^ 32) := by
  have hlt : x.toNat < 2 ^ 32 := of_decide_eq_true h
  have hones : upperOnes.toNat = (2 ^ 32 - 1) <<< 32 := rfl
  rw [BitVec.toNat_or, hones, Nat.or_comm, ← Nat.shiftLeft_add_eq_or_of_lt hlt]
  omega

theorem zextW_or_upperOnes (h : isUInt 32 x = true) : zextW (x ||| upperOnes) = x := by
  have hlt : x.toNat < 2 ^ 32 := of_decide_eq_true h
  apply BitVec.eq_of_toNat_eq
  rw [zextW_toNat, or_upperOnes_toNat h]
  omega

theorem isInt_or_upperOnes (h : isUInt 32 x = true) (hnot : ¬isInt 32 x = true) :
    isInt 32 (x ||| upperOnes) = true := by
  rw [isInt_32_iff] at hnot ⊢
  rw [or_upperOnes_toNat h]
  omega

/-- The shift of the rest gives the value back. -/
structure Shifted.Restores (s : Shifted) (V : BitVec 64) : Prop where
  shift : (if s.Unsigned then zextW s.Val else s.Val) <<< s.ShiftAmount = V
  lt : s.ShiftAmount < 64
  signed : s.ShiftAmount = 0 → s.Unsigned = false

variable {STI : MCSubtargetInfo} {V : BitVec 64} {s : Shifted}

theorem reduceShift_restores (h : s.Restores V) (hsigned : s.Unsigned = false) :
    (reduceShift STI s).Restores V := by
  have hshift := h.shift
  have hlt := h.lt
  rw [hsigned, if_neg Bool.false_ne_true] at hshift
  unfold reduceShift
  split
  · next hcond =>
      have hsplit : s.Val <<< 12 <<< (s.ShiftAmount - 12) = V := by
        rw [← BitVec.shiftLeft_add, Nat.add_sub_cancel' (Nat.le_of_lt hcond.1), hshift]
      split
      · refine ⟨?_, by dsimp only; omega, fun _ => rfl⟩
        rw [if_neg Bool.false_ne_true]
        exact hsplit
      · split
        · next huint =>
            refine ⟨?_, by dsimp only; omega, fun hzero => ?_⟩
            · rw [if_pos rfl, zextW_or_upperOnes huint.1]
              exact hsplit
            · dsimp only at hzero
              omega
        · exact h
  · exact h

theorem fillUpper_restores (h : s.Restores V) (hpos : s.ShiftAmount ≠ 0) :
    (fillUpper STI s).Restores V := by
  unfold fillUpper
  split
  · next hcond =>
      have hlt : s.Val.toNat < 2 ^ 32 := of_decide_eq_true hcond.1
      have hsame : zextW s.Val = s.Val := by
        apply BitVec.eq_of_toNat_eq
        rw [zextW_toNat, Nat.mod_eq_of_lt hlt]
      have hshift := h.shift
      rw [hsame, ite_self] at hshift
      refine ⟨?_, h.lt, fun hzero => absurd hzero hpos⟩
      rw [if_pos rfl, zextW_or_upperOnes hcond.1]
      exact hshift
  · exact h

theorem reduceShift_Val (STI : MCSubtargetInfo) (s : Shifted) :
    (reduceShift STI s).Val = s.Val ∨ isInt 32 (reduceShift STI s).Val = true := by
  unfold reduceShift
  split
  · split
    · next hint => exact Or.inr hint
    · next hnot =>
        split
        · next huint => exact Or.inr (isInt_or_upperOnes huint.1 hnot)
        · exact Or.inl rfl
  · exact Or.inl rfl

theorem reduceShift_pos (h : s.ShiftAmount ≠ 0) : (reduceShift STI s).ShiftAmount ≠ 0 := by
  unfold reduceShift
  split
  · next hcond =>
      split
      · dsimp only
        omega
      · split
        · dsimp only
          omega
        · exact h
  · exact h

theorem fillUpper_Val (STI : MCSubtargetInfo) (s : Shifted) :
    (fillUpper STI s).Val = s.Val ∨ isInt 32 (fillUpper STI s).Val = true := by
  unfold fillUpper
  split
  · next hcond => exact Or.inr (isInt_or_upperOnes hcond.1 hcond.2.1)
  · exact Or.inl rfl

theorem shiftOut_spec (STI : MCSubtargetInfo) (hV : V.toNat % 2 ^ 12 = 0) :
    (shiftOut STI V).Restores V ∧ (isInt 32 (shiftOut STI V).Val = true ∨
      ∃ c, 12 ≤ c ∧ (shiftOut STI V).Val = V.sshiftRight c) := by
  unfold shiftOut
  by_cases hint : isInt 32 V = true
  · rw [if_pos hint]
    refine ⟨⟨?_, Nat.zero_lt_succ 63, fun _ => rfl⟩, Or.inl hint⟩
    rw [if_neg Bool.false_ne_true]
    exact BitVec.shiftLeft_zero V
  · rw [if_neg hint]
    have hne : V ≠ 0 := by
      intro hzero
      rw [hzero] at hint
      exact hint (by decide)
    have hle := le_countr_zero hne hV
    have hlt := countr_zero_lt hne
    have hstart : Shifted.Restores
        { ShiftAmount := countr_zero V, Val := V.sshiftRight (countr_zero V), Unsigned := false }
        V := by
      refine ⟨?_, hlt, fun _ => rfl⟩
      rw [if_neg Bool.false_ne_true]
      exact sshiftRight_shiftLeft (countr_zero_spec hne).2
    refine ⟨fillUpper_restores (reduceShift_restores hstart rfl) ?_, ?_⟩
    · apply reduceShift_pos
      dsimp only
      omega
    · rcases fillUpper_Val STI (reduceShift STI
        { ShiftAmount := countr_zero V, Val := V.sshiftRight (countr_zero V), Unsigned := false })
        with hsame | hsmall
      · rw [hsame]
        rcases reduceShift_Val STI
          { ShiftAmount := countr_zero V, Val := V.sshiftRight (countr_zero V), Unsigned := false }
          with hsame' | hsmall'
        · exact Or.inr ⟨countr_zero V, hle, hsame'⟩
        · exact Or.inl hsmall'
      · exact Or.inl hsmall

/-! ## The recursion -/

theorem isInt_succ_iff (m : Nat) (x : BitVec 64) :
    isInt (m + 1) x = true ↔ -2 ^ m ≤ x.toInt ∧ x.toInt < 2 ^ m := decide_eq_true_iff

theorem isInt_mono (hmn : m ≤ n) (h : isInt (m + 1) x = true) : isInt (n + 1) x = true := by
  rw [isInt_succ_iff] at h ⊢
  have hpow : (2 : Int) ^ m ≤ 2 ^ n := by
    exact_mod_cast Nat.pow_le_pow_right (by decide : 0 < 2) hmn
  omega

theorem sub_lo12_mod (Val : BitVec 64) : (Val - SignExtend64 12 Val).toNat % 2 ^ 12 = 0 := by
  have hlo := SignExtend64_12_spec Val
  rw [BitVec.toNat_sub]
  omega

theorem sub_lo12_bounds (h : isInt (m + 12) Val = true) :
    -2 ^ (m + 11) - 2 ^ 11 ≤ (Val - SignExtend64 12 Val).toInt ∧
      (Val - SignExtend64 12 Val).toInt ≤ 2 ^ (m + 11) + 2 ^ 11 := by
  rw [isInt_succ_iff] at h
  have hlo := (isInt_12_iff _).mp (SignExtend64_12_spec Val).1
  have hVal := toInt_cases Val
  have hV := toInt_cases (Val - SignExtend64 12 Val)
  have hsub := BitVec.toNat_sub Val (SignExtend64 12 Val)
  generalize SignExtend64 12 Val = Lo at *
  by_cases hbig : m + 11 < 63
  · have hpow : (2 : Int) ^ (m + 11) ≤ 2 ^ 62 := by
      exact_mod_cast Nat.pow_le_pow_right (by decide : 0 < 2) (by omega : m + 11 ≤ 62)
    generalize (2 : Int) ^ (m + 11) = B at *
    omega
  · have hpow : (2 : Int) ^ 63 ≤ 2 ^ (m + 11) := by
      exact_mod_cast Nat.pow_le_pow_right (by decide : 0 < 2) (by omega : 63 ≤ m + 11)
    generalize (2 : Int) ^ (m + 11) = B at *
    omega

theorem shiftOut_isInt (STI : MCSubtargetInfo) (hm : 31 ≤ m) (h : isInt (m + 12) Val = true)
    (hzero : (Val - SignExtend64 12 Val).toNat % 2 ^ 12 = 0) :
    isInt (m + 1) (shiftOut STI (Val - SignExtend64 12 Val)).Val = true := by
  rcases (shiftOut_spec STI hzero).2 with hsmall | hshift
  · exact isInt_mono hm hsmall
  · obtain ⟨c, hc, hval⟩ := hshift
    obtain ⟨hlo, hhi⟩ := sub_lo12_bounds h
    have hpow : (2 : Int) ^ 12 ≤ 2 ^ c := by
      exact_mod_cast Nat.pow_le_pow_right (by decide : 0 < 2) hc
    have hm11 : (2 : Int) ^ 11 < 2 ^ (m + 11) := by
      exact_mod_cast Nat.pow_lt_pow_right (by decide : 1 < 2) (by omega : 11 < m + 11)
    have hsplit : (2 : Int) ^ (m + 11) * 2 = 2 ^ m * 2 ^ 12 := by
      rw [← pow_succ, ← pow_add]
    have hprod : (2 : Int) ^ m * 2 ^ 12 ≤ 2 ^ m * 2 ^ c :=
      Int.mul_le_mul_of_nonneg_left hpow (Int.le_of_lt (Int.pow_pos (by decide)))
    have hcpos := int_two_pow_pos c
    rw [isInt_succ_iff, hval, BitVec.toInt_sshiftRight, Int.shiftRight_eq_div_pow]
    generalize (2 : Int) ^ (m + 11) = B at hlo hhi hm11 hsplit
    constructor
    · apply Int.le_ediv_of_mul_le hcpos
      rw [Int.neg_mul]
      omega
    · apply Int.ediv_lt_of_lt_mul hcpos
      omega

theorem generateInstSeqImpl_step {STI : MCSubtargetInfo} (h64 : STI.Feature64Bit = true)
    {fuel : Nat} (hbig : ¬isInt 32 Val = true) {Res : InstSeq}
    (hRes : generateInstSeqImpl STI fuel (shiftOut STI (Val - SignExtend64 12 Val)).Val = some Res)
    (hcomputes : Computes Res (shiftOut STI (Val - SignExtend64 12 Val)).Val) :
    ∃ Res', generateInstSeqImpl STI (fuel + 1) Val = some Res' ∧ Computes Res' Val := by
  unfold generateInstSeqImpl
  by_cases hbit : STI.FeatureStdExtZbs ∧ isPowerOf2_64 Val ∧ (¬isInt 32 Val ∨ Val = 0x800)
  · rw [if_pos hbit]
    obtain ⟨Res', hRes', _, hval⟩ :=
      bseti_spec (Or.inr rfl) hbit.2.1 (isPowerOf2_64_spec hbit.2.1).1
    exact ⟨Res', hRes', hval⟩
  · rw [if_neg hbit, if_neg hbig]
    have hlo := SignExtend64_12_spec Val
    have hzero := sub_lo12_mod Val
    obtain ⟨hshift, hlt, hsigned⟩ := (shiftOut_spec STI hzero).1
    simp only [guard, if_pos h64, Option.pure_def, Option.bind_eq_bind, Option.bind_some, hRes]
    have hback : Val - SignExtend64 12 Val + SignExtend64 12 Val = Val :=
      BitVec.sub_add_cancel _ _
    generalize shiftOut STI (Val - SignExtend64 12 Val) = s at hshift hlt hsigned hcomputes ⊢
    generalize Val - SignExtend64 12 Val = V at hshift hback
    have hadd : ∀ Res', Computes Res' V → ∃ Res'', (if SignExtend64 12 Val ≠ 0 then
        emplace_back .ADDI (SignExtend64 12 Val) Res' else some Res') = some Res'' ∧
        Computes Res'' Val := by
      intro Res' hval
      by_cases hnone : SignExtend64 12 Val = 0
      · rw [if_neg (not_not.mpr hnone)]
        rw [hnone] at hback
        rw [← hback]
        exact ⟨Res', rfl, hval.trans (congrArg some (BitVec.add_zero V).symm)⟩
      · rw [if_pos hnone, emplace_back_eq (isInt_32_of_12 hlo.1)]
        refine ⟨_, rfl, ?_⟩
        have hsum := hval.snoc (exec_ADDI hlo.1 V)
        rw [BitVec.setWidth_eq, hback] at hsum
        exact hsum
    by_cases hnone : s.ShiftAmount = 0
    · rw [if_neg (not_not.mpr hnone)]
      rw [hsigned hnone, hnone, if_neg Bool.false_ne_true, BitVec.shiftLeft_zero] at hshift
      exact hadd Res (hshift ▸ hcomputes)
    · rw [if_pos hnone, emplace_back_eq (isInt_32_ofNat (by omega)), Option.bind_some]
      apply hadd
      cases hunsigned : s.Unsigned with
      | true =>
        rw [hunsigned, if_pos rfl] at hshift
        rw [← hshift]
        exact hcomputes.snoc (exec_SLLI_UW hlt _)
      | false =>
        rw [hunsigned, if_neg Bool.false_ne_true] at hshift
        rw [← hshift]
        exact hcomputes.snoc (exec_SLLI hlt (Nat.le_refl 64) _)

theorem XLen_eq_64 {STI : MCSubtargetInfo} (h64 : STI.Feature64Bit = true) : STI.XLen = 64 := by
  unfold MCSubtargetInfo.XLen
  rw [if_pos h64]

theorem generateInstSeqImpl_word {STI : MCSubtargetInfo} (h64 : STI.Feature64Bit = true)
    (fuel : Nat) (h : isInt 32 Val = true) :
    ∃ Res, generateInstSeqImpl STI (fuel + 1) Val = some Res ∧ Res.length ≤ 2 ∧
      Computes Res Val := by
  have hspec := generateInstSeqImpl_int32 STI fuel h
  rw [XLen_eq_64 h64, BitVec.setWidth_eq] at hspec
  exact hspec

theorem generateInstSeqImpl_levels {STI : MCSubtargetInfo} (h64 : STI.Feature64Bit = true)
    (k : Nat) (h : isInt (31 + 11 * k + 1) Val = true) :
    ∃ Res, generateInstSeqImpl STI (k + 1) Val = some Res ∧ Computes Res Val := by
  induction k generalizing Val with
  | zero =>
    obtain ⟨Res, hRes, _, hcomputes⟩ := generateInstSeqImpl_word h64 0 h
    exact ⟨Res, hRes, hcomputes⟩
  | succ k ih =>
    by_cases hsmall : isInt 32 Val = true
    · obtain ⟨Res, hRes, _, hcomputes⟩ := generateInstSeqImpl_word h64 (k + 1) hsmall
      exact ⟨Res, hRes, hcomputes⟩
    · obtain ⟨Res, hRes, hcomputes⟩ :=
        ih (shiftOut_isInt STI (Nat.le_add_right 31 _) h (sub_lo12_mod Val))
      exact generateInstSeqImpl_step h64 hsmall hRes hcomputes

theorem generateInstSeqImpl_mono {STI : MCSubtargetInfo} {fuel : Nat} {Res : InstSeq}
    (h : generateInstSeqImpl STI fuel Val = some Res) :
    generateInstSeqImpl STI (fuel + 1) Val = some Res := by
  induction fuel generalizing Val Res with
  | zero => cases h
  | succ fuel ih =>
    unfold generateInstSeqImpl at h ⊢
    split at h
    · next hbit =>
        rw [if_pos hbit]
        exact h
    · next hbit =>
        rw [if_neg hbit]
        split at h
        · next hint =>
            rw [if_pos hint]
            exact h
        · next hint =>
            rw [if_neg hint]
            dsimp only at h ⊢
            cases hrest : generateInstSeqImpl STI fuel
                (shiftOut STI (Val - SignExtend64 12 Val)).Val with
            | none =>
              simp [hrest] at h
            | some Res' =>
              rw [hrest] at h
              rw [ih hrest]
              exact h

theorem generateInstSeqImpl_spec {STI : MCSubtargetInfo} (h64 : STI.Feature64Bit = true)
    (Val : BitVec 64) :
    ∃ Res, generateInstSeqImpl STI 4 Val = some Res ∧ Computes Res Val := by
  apply generateInstSeqImpl_levels h64 3
  rw [isInt_succ_iff]
  have hcases := toInt_cases Val
  omega

end SmlnjLlvm.RISCV
