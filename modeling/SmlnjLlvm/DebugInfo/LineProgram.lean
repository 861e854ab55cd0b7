import SmlnjLlvm.DebugInfo.LineMachine
import SmlnjLlvm.MC.DwarfLineAddr

/-!
# What emitted line programs do

The bytes that `encode` emits for a line delta and an address delta, run by the
line-number state machine from any state that a program can be in.
-/

namespace SmlnjLlvm.DWARF

open MC LEB128

def Prologue.emitted (Params : MCDwarfLineTableParams) (DwarfVersion : Nat) (MinInstLength : UInt8)
    (StandardOpcodeLengths : List UInt8) : Prologue where
  MinInstLength := MinInstLength
  -- maximum_operations_per_instruction is read from version 4 on.
  MaxOpsPerInst := if 4 ≤ DwarfVersion then 1 else 0
  DefaultIsStmt := true
  LineBase := Params.DWARF2LineBase
  LineRange := Params.DWARF2LineRange
  OpcodeBase := Params.DWARF2LineOpcodeBase
  StandardOpcodeLengths := StandardOpcodeLengths

/-- No instruction has two operations. -/
def Prologue.SingleOp (p : Prologue) : Prop := p.MaxOpsPerInst = 0 ∨ p.MaxOpsPerInst = 1

theorem Prologue.emitted_singleOp (Params : MCDwarfLineTableParams) (DwarfVersion : Nat)
    (MinInstLength : UInt8) (StandardOpcodeLengths : List UInt8) :
    (emitted Params DwarfVersion MinInstLength StandardOpcodeLengths).SingleOp := by
  unfold SingleOp emitted
  split
  · exact Or.inr rfl
  · exact Or.inl rfl

/-! ## The operation index -/

variable {AddrDelta LineDelta : BitVec 64} {Opcode : UInt8} {bytes : List UInt8}

section OpIndex

variable {t : TableData} {p : Prologue} {m m' : Machine} {C C' : Cursor}

theorem Row.advanceAddrOpIndex_eq (hp : p.SingleOp) (OperationAdvance : BitVec 64) (r : Row) :
    r.advanceAddrOpIndex p OperationAdvance =
      { r with
        Address.Address := r.Address.Address + (r.OpIndex.setWidth 64 + OperationAdvance) *
          p.MinInstLength.toBitVec.setWidth 64
        OpIndex := 0 } := by
  have hone : (if p.MaxOpsPerInst = 0 then 1 else p.MaxOpsPerInst) = 1 := by
    rcases hp with h | h <;> simp [h]
  unfold Row.advanceAddrOpIndex
  rw [hone]
  simp [BitVec.umod_one]

theorem Row.advanceAddrOpIndex_OpIndex (hp : p.SingleOp) (OperationAdvance : BitVec 64) (r : Row) :
    (r.advanceAddrOpIndex p OperationAdvance).OpIndex = 0 := by
  rw [advanceAddrOpIndex_eq hp]

theorem Machine.EmitRow_OpIndex (m : Machine) : m.EmitRow.Row.OpIndex = m.Row.OpIndex := by
  unfold EmitRow appendRowToMatrix Row.postAppend
  split
  · rfl
  · dsimp only
    split <;> rfl

theorem Machine.setAddress_OpIndex (h : m.Row.OpIndex = 0) (Len : BitVec 64) :
    (m.setAddress t Len C).1.Row.OpIndex = 0 := by
  unfold setAddress
  dsimp only
  split
  · rfl
  · exact h

theorem Machine.defineFile_Row (hrun : m.defineFile t C = some (m', C')) : m'.Row = m.Row := by
  simp only [defineFile, Option.bind_eq_bind, Option.bind_eq_some_iff, Option.pure_def,
    Option.some.injEq, Prod.mk.injEq] at hrun
  obtain ⟨_, -, _, -, _, -, rfl, -⟩ := hrun
  rfl

theorem Machine.extendedEffect_OpIndex (h : m.Row.OpIndex = 0) {SubOpcode : UInt8}
    {Len : BitVec 64} (hrun : m.extendedEffect t p SubOpcode Len C = some m') :
    m'.Row.OpIndex = 0 := by
  unfold extendedEffect at hrun
  split at hrun
  · obtain rfl := Option.some.inj hrun
    rfl
  · obtain rfl := Option.some.inj hrun
    exact setAddress_OpIndex h Len
  · obtain ⟨⟨m₁, C₁⟩, hfile, rfl⟩ := Option.map_eq_some_iff.mp hrun
    rw [defineFile_Row hfile]
    exact h
  · obtain ⟨_, -, rfl⟩ := Option.map_eq_some_iff.mp hrun
    exact h
  · obtain rfl := Option.some.inj hrun
    exact h

theorem Machine.standardEffect_OpIndex (hp : p.SingleOp) (h : m.Row.OpIndex = 0)
    (hrun : m.standardEffect t p Opcode C = some (m', C')) : m'.Row.OpIndex = 0 := by
  have hparse {w : Nat} {f : BitVec w × Cursor → Machine × Cursor}
      (hrun : (parseULEB128 t w C).map f = some (m', C'))
      (hf : ∀ x, (f x).1.Row.OpIndex = 0) : m'.Row.OpIndex = 0 := by
    obtain ⟨x, -, hx⟩ := Option.map_eq_some_iff.mp hrun
    have hx₁ : (f x).1 = m' := congrArg Prod.fst hx
    rw [← hx₁]
    exact hf x
  have hsome {m₁ : Machine} {C₁ : Cursor} (hrun : some (m₁, C₁) = some (m', C'))
      (h₁ : m₁.Row.OpIndex = 0) : m'.Row.OpIndex = 0 := by
    obtain ⟨rfl, -⟩ := Prod.mk.inj (Option.some.inj hrun)
    exact h₁
  unfold standardEffect at hrun
  split at hrun
  · exact hsome hrun (m.EmitRow_OpIndex.trans h)
  · exact hparse hrun fun x => Row.advanceAddrOpIndex_OpIndex hp x.1 m.Row
  · obtain ⟨⟨_, C₁⟩, -, hrun⟩ := Option.bind_eq_some_iff.mp hrun
    dsimp only at hrun
    split at hrun
    · exact hsome hrun h
    · exact nomatch hrun
  · exact hparse hrun fun _ => h
  · exact hparse hrun fun _ => h
  · exact hsome hrun h
  · exact hsome hrun h
  · exact hsome hrun (Row.advanceAddrOpIndex_OpIndex hp _ m.Row)
  · dsimp only at hrun
    split at hrun
    · exact hsome hrun rfl
    · exact nomatch hrun
  · exact hsome hrun h
  · exact hsome hrun h
  · exact hparse hrun fun _ => h
  · obtain ⟨_, -, hrun⟩ := Option.bind_eq_some_iff.mp hrun
    obtain ⟨_, -, hrun⟩ := Option.bind_eq_some_iff.mp hrun
    exact hsome hrun h

theorem Machine.step_OpIndex (hp : p.SingleOp) (h : m.Row.OpIndex = 0)
    (hrun : m.step t p = some m') : m'.Row.OpIndex = 0 := by
  unfold step at hrun
  split at hrun
  · dsimp only at hrun
    split at hrun
    · obtain ⟨⟨Len, C₁⟩, -, hrun⟩ := Option.bind_eq_some_iff.mp hrun
      dsimp only at hrun
      split at hrun
      · obtain rfl := Option.some.inj hrun
        exact h
      · obtain ⟨m₁, heffect, hrun⟩ := Option.bind_eq_some_iff.mp hrun
        obtain rfl := Option.some.inj hrun
        exact (extendedEffect_OpIndex h heffect :)
    · split at hrun
      · obtain ⟨⟨m₁, C₁⟩, heffect, hrun⟩ := Option.bind_eq_some_iff.mp hrun
        obtain rfl := Option.some.inj hrun
        exact (standardEffect_OpIndex hp h heffect :)
      · obtain rfl := Option.some.inj hrun
        show (EmitRow _).Row.OpIndex = 0
        rw [EmitRow_OpIndex]
        exact Row.advanceAddrOpIndex_OpIndex hp _ m.Row
  · exact nomatch hrun

theorem Machine.run_OpIndex (hp : p.SingleOp) {opcodes : Nat} (h : m.Row.OpIndex = 0)
    (hrun : m.run t p opcodes = some m') : m'.Row.OpIndex = 0 := by
  induction opcodes generalizing m with
  | zero =>
    obtain rfl := Option.some.inj hrun
    exact h
  | succ opcodes ih =>
    obtain ⟨m₁, hstep, hrest⟩ := Option.bind_eq_some_iff.mp hrun
    exact ih (step_OpIndex hp h hstep) hrest

theorem Machine.Reachable.OpIndex (hp : p.SingleOp) (h : m.Reachable t p) : m.Row.OpIndex = 0 := by
  obtain ⟨FileNames, AddressSize, Offset, opcodes, hrun⟩ := h
  exact run_OpIndex hp rfl hrun

end OpIndex

/-- The row after its address and its line have been advanced. -/
def Row.moved (r : Row) (AddrDelta : BitVec 64) (LineDelta : BitVec 32) : Row :=
  { r with
    Address.Address := r.Address.Address + AddrDelta
    Line := r.Line + LineDelta }

namespace Machine

/-- `n` bytes further, with the registers advanced and no row. -/
def moved (m : Machine) (n : Nat) (AddrDelta : BitVec 64) (LineDelta : BitVec 32) : Machine :=
  { m with Offset := m.Offset + n, Row := m.Row.moved AddrDelta LineDelta }

/-- `n` bytes further, with the registers advanced and the row appended. -/
def emitted (m : Machine) (n : Nat) (AddrDelta : BitVec 64) (LineDelta : BitVec 32) : Machine :=
  { { m with Row := m.Row.moved AddrDelta LineDelta }.EmitRow with Offset := m.Offset + n }

theorem EmitRow_Offset (m : Machine) (Offset : Nat) :
    { m with Offset := Offset }.EmitRow = { m.EmitRow with Offset := Offset } := by
  unfold EmitRow appendRowToMatrix
  dsimp only
  split
  · rfl
  · split <;> rfl

theorem moved_emitted (m : Machine) (n n' : Nat) (a a' : BitVec 64) (l l' : BitVec 32) :
    (m.moved n a l).emitted n' a' l' = m.emitted (n + n') (a + a') (l + l') := by
  unfold emitted
  rw [← EmitRow_Offset, ← EmitRow_Offset]
  simp [moved, Row.moved, Nat.add_assoc, BitVec.add_assoc]

theorem EmitRow_Rows (m : Machine) :
    m.EmitRow.Rows = m.Rows ++ if m.TombstonedAddress then [] else [m.Row] := by
  unfold EmitRow appendRowToMatrix
  split
  · simp
  · dsimp only
    split <;> rfl

theorem EmitRow_Row (m : Machine) :
    m.EmitRow.Row = if m.TombstonedAddress then m.Row else m.Row.postAppend := by
  unfold EmitRow appendRowToMatrix
  split
  · rfl
  · dsimp only
    split <;> rfl

theorem emitted_Address (m : Machine) (n : Nat) (a : BitVec 64) (l : BitVec 32) :
    (m.emitted n a l).Row.Address.Address = m.Row.Address.Address + a := by
  simp only [emitted, EmitRow_Row]
  split <;> rfl

theorem emitted_Line (m : Machine) (n : Nat) (a : BitVec 64) (l : BitVec 32) :
    (m.emitted n a l).Row.Line = m.Row.Line + l := by
  simp only [emitted, EmitRow_Row]
  split <;> rfl

theorem emitted_Rows (m : Machine) (n : Nat) (a : BitVec 64) (l : BitVec 32) :
    (m.emitted n a l).Rows =
      m.Rows ++ if m.TombstonedAddress then [] else [m.Row.moved a l] :=
  EmitRow_Rows _

end Machine

/-! ## The opcodes that are emitted -/

section Opcodes

variable {t : TableData} {p : Prologue} {m : Machine} {r : DWARF.Row}

/-- What the address moves by, for a number of instructions of the least length. -/
def Prologue.scaled (p : Prologue) (n : BitVec 64) : BitVec 64 :=
  n * p.MinInstLength.toBitVec.setWidth 64

/-- A prologue that the standard opcodes of the encoder work with. -/
structure Prologue.Usable (p : Prologue) : Prop where
  single : p.SingleOp
  range : 0 < p.LineRange.toNat
  base : 9 < p.OpcodeBase.toNat

theorem Row.advanceAddrOpIndex_moved (hp : p.SingleOp) (hr : r.OpIndex = 0) (n : BitVec 64) :
    r.advanceAddrOpIndex p n = r.moved (p.scaled n) 0 := by
  have hindex : r.OpIndex.setWidth 64 + n = n := by
    rw [hr]
    exact BitVec.zero_add n
  have hline : r.Line + 0 = r.Line := BitVec.add_zero r.Line
  rw [Row.advanceAddrOpIndex_eq hp, hindex, ← hr]
  unfold Row.moved
  rw [hline]
  rfl

theorem Row.handleSpecialOpcode_moved (hp : p.Usable) (hr : r.OpIndex = 0) {k T : Nat}
    (hT : T < p.LineRange.toNat)
    (hop : Opcode.toNat = p.OpcodeBase.toNat + (T + k * p.LineRange.toNat)) :
    r.handleSpecialOpcode p Opcode =
      r.moved (p.scaled (BitVec.ofNat 64 k)) (p.LineBase.signExtend 32 + BitVec.ofNat 32 T) := by
  have hbase := hp.base
  have hne : Opcode ≠ 0x08 := by
    rintro rfl
    have height : (0x08 : UInt8).toNat = 8 := rfl
    omega
  have hrange : p.LineRange ≠ 0 := by
    intro hzero
    have hpos := hp.range
    rw [hzero] at hpos
    exact absurd hpos (by decide)
  have hle : p.OpcodeBase ≤ Opcode := UInt8.le_iff_toNat_le.mpr (by omega)
  have hadj : (Opcode - p.OpcodeBase).toNat = T + k * p.LineRange.toNat := by
    rw [UInt8.toNat_sub_of_le _ _ hle]
    omega
  have hdiv : ((Opcode - p.OpcodeBase) / p.LineRange).toBitVec.setWidth 64 = BitVec.ofNat 64 k := by
    apply BitVec.eq_of_toNat_eq
    rw [BitVec.toNat_setWidth, UInt8.toNat_toBitVec, UInt8.toNat_div, hadj,
      Nat.add_mul_div_right _ _ hp.range, Nat.div_eq_of_lt hT, Nat.zero_add, BitVec.toNat_ofNat]
  have hmod : ((Opcode - p.OpcodeBase) % p.LineRange).toBitVec.setWidth 32 = BitVec.ofNat 32 T := by
    apply BitVec.eq_of_toNat_eq
    rw [BitVec.toNat_setWidth, UInt8.toNat_toBitVec, UInt8.toNat_mod, hadj,
      Nat.add_mul_mod_self_right, Nat.mod_eq_of_lt hT, BitVec.toNat_ofNat]
  unfold Row.handleSpecialOpcode Row.advanceForOpcode
  simp only [if_neg hne, if_pos hrange, hdiv, hmod, Row.advanceAddrOpIndex_moved hp.single hr]
  simp [Row.moved]

namespace Machine

theorem step_special (hp : p.Usable) (hr : m.Row.OpIndex = 0) {k T : Nat}
    (hT : T < p.LineRange.toNat)
    (hop : Opcode.toNat = p.OpcodeBase.toNat + (T + k * p.LineRange.toNat))
    (h : t.At m.Offset [Opcode]) :
    m.step t p = some (m.emitted 1 (p.scaled (BitVec.ofNat 64 k))
      (p.LineBase.signExtend 32 + BitVec.ofNat 32 T)) := by
  have hbase := hp.base
  have hne : Opcode ≠ 0 := by
    rintro rfl
    have hzero : (0 : UInt8).toNat = 0 := rfl
    omega
  have hge : ¬Opcode < p.OpcodeBase := by
    rw [UInt8.lt_iff_toNat_lt]
    omega
  simp only [step, h.lt, if_true, DataExtractor.getU8_at h, if_neg hne, if_neg hge, specialOpcode,
    Row.handleSpecialOpcode_moved hp hr hT hop]
  rfl

theorem step_standard (hp : p.Usable) {operand : List UInt8} (hpos : Opcode ≠ 0)
    (hle : Opcode.toNat ≤ 9) (h : t.At m.Offset (Opcode :: operand)) :
    m.step t p = m.standardOpcode t p Opcode (.start (m.Offset + 1)) := by
  have hbase := hp.base
  have hlt : Opcode < p.OpcodeBase := UInt8.lt_iff_toNat_lt.mpr (by omega)
  simp only [step, h.lt, if_true, DataExtractor.getU8_at h, if_neg hpos, if_pos hlt]

theorem step_copy (hp : p.Usable) (h : t.At m.Offset [DW_LNS_copy]) :
    m.step t p = some (m.emitted 1 0 0) := by
  rw [step_standard hp (by decide) (by decide) h]
  have hrow : m.Row.moved 0 0 = m.Row := by simp [Row.moved]
  unfold emitted
  rw [hrow]
  rfl

theorem step_const_add_pc (hp : p.Usable) (hr : m.Row.OpIndex = 0)
    (h : t.At m.Offset [DW_LNS_const_add_pc]) :
    m.step t p = some (m.moved 1
      (p.scaled (BitVec.ofNat 64 ((255 - p.OpcodeBase.toNat) / p.LineRange.toNat))) 0) := by
  rw [step_standard hp (by decide) (by decide) h]
  have hrange : p.LineRange ≠ 0 := by
    intro hzero
    have hpos := hp.range
    rw [hzero] at hpos
    exact absurd hpos (by decide)
  have hle : p.OpcodeBase ≤ 255 := UInt8.le_iff_toNat_le.mpr (Nat.le_of_lt_succ p.OpcodeBase.toNat_lt)
  have hdiv : ((255 - p.OpcodeBase) / p.LineRange).toBitVec.setWidth 64 =
      BitVec.ofNat 64 ((255 - p.OpcodeBase.toNat) / p.LineRange.toNat) := by
    apply BitVec.eq_of_toNat_eq
    rw [BitVec.toNat_setWidth, UInt8.toNat_toBitVec, UInt8.toNat_div, UInt8.toNat_sub_of_le _ _ hle,
      BitVec.toNat_ofNat]
    rfl
  have hrow : (m.Row.advanceForOpcode p DW_LNS_const_add_pc).1 = m.Row.moved (p.scaled
      (BitVec.ofNat 64 ((255 - p.OpcodeBase.toNat) / p.LineRange.toNat))) 0 := by
    rw [← hdiv, ← Row.advanceAddrOpIndex_moved hp.single hr]
    simp [Row.advanceForOpcode, DW_LNS_const_add_pc, hrange]
  show some { m with Row := (m.Row.advanceForOpcode p DW_LNS_const_add_pc).1,
                     Offset := m.Offset + 1 } = _
  rw [hrow]
  rfl

theorem step_advance_pc (hp : p.Usable) (hr : m.Row.OpIndex = 0) (Operand : BitVec 64)
    (h : t.At m.Offset (DW_LNS_advance_pc :: uleb128 Operand)) :
    m.step t p = some (m.moved (uleb128 Operand).length.succ (p.scaled Operand) 0) := by
  have hread := DataExtractor.getULEB128_at (decodeULEB128_uleb128 Operand) h.tail
  rw [step_standard hp (by decide) (by decide) h]
  simp only [standardOpcode, standardEffect, DW_LNS_advance_pc, parseULEB128, hread,
    Row.advanceAddrOpIndex_moved hp.single hr]
  simp [moved, Nat.add_assoc, Nat.add_comm 1]

theorem step_advance_line (hp : p.Usable) (LineDelta : BitVec 64)
    (h : t.At m.Offset (DW_LNS_advance_line :: sleb128 LineDelta)) :
    m.step t p = some (m.moved (sleb128 LineDelta).length.succ 0 (LineDelta.setWidth 32)) := by
  have hread := DataExtractor.getSLEB128_at (decodeSLEB128_sleb128 LineDelta) h.tail
  rw [step_standard hp (by decide) (by decide) h]
  simp only [standardOpcode, standardEffect, DW_LNS_advance_line, hread]
  simp [moved, Row.moved, Nat.add_assoc, Nat.add_comm 1]

/-- The end of a sequence: the row is appended with its mark, and the registers are reset. -/
def ended (p : Prologue) (m : Machine) (n : Nat) (AddrDelta : BitVec 64) : Machine :=
  { { m with Row := { m.Row.moved AddrDelta 0 with EndSequence := true } }.EmitRow.resetRowAndSequence p
    with Offset := m.Offset + n }

theorem step_end_sequence
    (h : t.At m.Offset [DW_LNS_extended_op, 1, DW_LNE_end_sequence]) :
    m.step t p = some (m.ended p 3 0) := by
  have hend := h.tail.tail.lt
  have hsize := t.size_lt
  have hread : t.getULEB128 (.start (m.Offset + 1)) = some (1, .start (m.Offset + 2)) := by
    apply DataExtractor.getULEB128_at _ h.tail.head
    intro hasEnd tail
    rfl
  have hoffset : (m.Offset + 2 + 1) % 2 ^ 64 = m.Offset + 3 := Nat.mod_eq_of_lt (by omega)
  have hrow : m.Row.moved 0 0 = m.Row := by simp [Row.moved]
  unfold ended
  rw [hrow, ← hoffset]
  simp only [step, h.lt, if_true, DataExtractor.getU8_at h, DW_LNS_extended_op, extendedOpcode, hread,
    Option.bind_eq_bind, Option.bind_some, DataExtractor.getU8_at h.tail.tail]
  rfl

/-- Opcodes that lead to a last one, and append no row before it. -/
def Leads (t : TableData) (p : Prologue) (m m' : Machine) : Prop :=
  ∃ opcodes m₁, m.run t p opcodes = some m₁ ∧ m₁.step t p = some m' ∧
    ∀ i ≤ opcodes, ∀ mᵢ, m.run t p i = some mᵢ → mᵢ.Rows = m.Rows

variable {m' : Machine} {n n' : Nat} {a a' : BitVec 64} {l l' : BitVec 32}

theorem Leads.last (h : m.step t p = some m') : m.Leads t p m' := by
  refine ⟨0, m, rfl, h, ?_⟩
  intro i hi mᵢ hrun
  rw [Nat.le_zero.mp hi] at hrun
  rw [← Option.some.inj hrun]

theorem Leads.after_move (h : m.step t p = some (m.moved n a l))
    (hrest : (m.moved n a l).Leads t p m') : m.Leads t p m' := by
  obtain ⟨opcodes, m₁, hrun, hstep, hrows⟩ := hrest
  refine ⟨opcodes + 1, m₁, ?_, hstep, ?_⟩
  · rw [run, h]
    exact hrun
  · intro i hi mᵢ hᵢ
    cases i with
    | zero => rw [← Option.some.inj hᵢ]
    | succ i =>
      rw [run, h] at hᵢ
      exact hrows i (Nat.le_of_succ_le_succ hi) mᵢ hᵢ

/-- The last opcode appends the row, for the registers that have moved. -/
def Emits (t : TableData) (p : Prologue) (m : Machine) (n : Nat) (AddrDelta : BitVec 64)
    (LineDelta : BitVec 32) : Prop :=
  m.Leads t p (m.emitted n AddrDelta LineDelta)

theorem Emits.last (h : m.step t p = some (m.emitted n a l)) : m.Emits t p n a l := Leads.last h

theorem Emits.after_move (h : m.step t p = some (m.moved n a l))
    (hrest : (m.moved n a l).Emits t p n' a' l') : m.Emits t p (n + n') (a + a') (l + l') := by
  unfold Emits at hrest
  rw [moved_emitted] at hrest
  exact Leads.after_move h hrest

/-- The last opcode ends the sequence, for the address that has moved. -/
def Ends (t : TableData) (p : Prologue) (m : Machine) (n : Nat) (AddrDelta : BitVec 64) : Prop :=
  m.Leads t p (m.ended p n AddrDelta)

theorem Ends.last (h : m.step t p = some (m.ended p n a)) : m.Ends t p n a := Leads.last h

theorem moved_ended (m : Machine) (p : Prologue) (n n' : Nat) (a a' : BitVec 64) :
    (m.moved n a 0).ended p n' a' = m.ended p (n + n') (a + a') := by
  have hrow : (m.Row.moved a 0).moved a' 0 = m.Row.moved (a + a') 0 := by
    simp [Row.moved, BitVec.add_assoc]
  simp only [ended, moved, hrow, Nat.add_assoc]
  rw [EmitRow_Offset { m with Row := { m.Row.moved (a + a') 0 with EndSequence := true } }]
  rfl

theorem Ends.after_move (h : m.step t p = some (m.moved n a 0))
    (hrest : (m.moved n a 0).Ends t p n' a') : m.Ends t p (n + n') (a + a') := by
  unfold Ends at hrest
  rw [moved_ended] at hrest
  exact Leads.after_move h hrest

end Machine

end Opcodes

/-! ## The encoder -/

section Encode

/-- The parameters for which every line delta in the range has a special opcode. -/
structure Valid (Params : MCDwarfLineTableParams) : Prop where
  range : 0 < Params.DWARF2LineRange.toNat
  base : 9 < Params.DWARF2LineOpcodeBase.toNat
  lineBase_le : Params.DWARF2LineBase.toInt ≤ 0
  lineBase_lt : 0 < Params.DWARF2LineBase.toInt + Params.DWARF2LineRange.toNat
  special : Params.DWARF2LineOpcodeBase.toNat - Params.DWARF2LineBase.toInt ≤ 255

variable {Params : MCDwarfLineTableParams} {t : TableData} {p : Prologue}

structure Prologue.Has (p : Prologue) (Params : MCDwarfLineTableParams) : Prop where
  single : p.SingleOp
  base : p.OpcodeBase = Params.DWARF2LineOpcodeBase
  lineBase : p.LineBase = Params.DWARF2LineBase
  range : p.LineRange = Params.DWARF2LineRange

theorem Valid.usable (h : Valid Params) (hp : p.Has Params) : p.Usable where
  single := hp.single
  range := hp.range ▸ h.range
  base := hp.base ▸ h.base

theorem toNat_opcodeBase : Params.opcodeBase.toNat = Params.DWARF2LineOpcodeBase.toNat := by
  simp [MCDwarfLineTableParams.opcodeBase]

theorem toNat_lineRange : Params.lineRange.toNat = Params.DWARF2LineRange.toNat := by
  simp [MCDwarfLineTableParams.lineRange]

theorem SpecialAddr_eq (h : Valid Params) : SpecialAddr Params 255 = some (BitVec.ofNat 64
    ((255 - Params.DWARF2LineOpcodeBase.toNat) / Params.DWARF2LineRange.toNat)) := by
  have hrange : Params.DWARF2LineRange ≠ 0 := by
    intro hzero
    have hpos := h.range
    rw [hzero] at hpos
    exact absurd hpos (by decide)
  have hlt := Params.DWARF2LineOpcodeBase.toNat_lt
  unfold SpecialAddr
  rw [if_neg hrange]
  congr 1
  apply BitVec.eq_of_toNat_eq
  have hsub : (255 - Params.opcodeBase : BitVec 64).toNat =
      255 - Params.DWARF2LineOpcodeBase.toNat := by
    rw [BitVec.toNat_sub_of_le, toNat_opcodeBase]
    · rfl
    · rw [BitVec.le_def, toNat_opcodeBase]
      exact Nat.le_of_lt_succ hlt
  have hdiv := Nat.div_le_self (255 - Params.DWARF2LineOpcodeBase.toNat)
    Params.DWARF2LineRange.toNat
  rw [BitVec.toNat_udiv, hsub, toNat_lineRange, BitVec.toNat_ofNat, Nat.mod_eq_of_lt (by omega)]

theorem byteOf_toNat {Opcode : BitVec 64} (h : Opcode.toNat ≤ 255) :
    (byteOf Opcode).toNat = Opcode.toNat := by
  rw [byteOf, UInt8.toNat_ofBitVec, BitVec.toNat_setWidth]
  exact Nat.mod_eq_of_lt (Nat.lt_succ_of_le h)

theorem Prologue.scaled_add (p : Prologue) (x y : BitVec 64) :
    p.scaled (x + y) = p.scaled x + p.scaled y := BitVec.add_mul

/--
The choice of the opcodes, for a biased line delta in the range. Below the
greatest address advance of a special opcode a single one is enough, so the
subtraction of it does not wrap.
-/
theorem encodeAddr_emits (h : Valid Params) (hp : p.Has Params) (LineDelta A Temp : BitVec 64)
    (NeedCopy : Bool) (hT : Temp.toNat < Params.DWARF2LineRange.toNat)
    (hbase : Params.DWARF2LineOpcodeBase.toNat + Temp.toNat ≤ 255)
    (hzero : LineDelta = 0 ∨ NeedCopy = true →
      p.LineBase.signExtend 32 + BitVec.ofNat 32 Temp.toNat = 0) :
    ∃ bytes, encodeAddr Params (BitVec.ofNat 64
        ((255 - Params.DWARF2LineOpcodeBase.toNat) / Params.DWARF2LineRange.toNat))
        LineDelta A Temp NeedCopy = some bytes ∧
      ∀ (t : TableData) (m : Machine), m.Row.OpIndex = 0 → t.At m.Offset bytes →
        m.Emits t p bytes.length (p.scaled A) (p.LineBase.signExtend 32 + BitVec.ofNat 32 Temp.toNat) := by
  have hu := h.usable hp
  have hR := Params.DWARF2LineRange.toNat_lt
  generalize hM : (255 - Params.DWARF2LineOpcodeBase.toNat) / Params.DWARF2LineRange.toNat = M
  have hMle : M * Params.DWARF2LineRange.toNat ≤ 255 - Params.DWARF2LineOpcodeBase.toNat :=
    hM ▸ Nat.div_mul_le_self _ _
  have hM255 : M ≤ 255 := hM ▸ (Nat.div_le_self _ _).trans (Nat.sub_le _ _)
  have hTemp : (Temp + Params.opcodeBase).toNat =
      Params.DWARF2LineOpcodeBase.toNat + Temp.toNat := by
    rw [BitVec.toNat_add, toNat_opcodeBase]
    omega
  -- The advance by a multiple, and the rest of the row by a special opcode or a copy.
  have hadvance : ∀ last : List UInt8, last.length = 1 →
      (∀ (t : TableData) (m : Machine), m.Row.OpIndex = 0 → t.At m.Offset last → m.step t p =
        some (m.emitted 1 0 (p.LineBase.signExtend 32 + BitVec.ofNat 32 Temp.toNat))) →
      ∀ (t : TableData) (m : Machine), m.Row.OpIndex = 0 → t.At m.Offset (DW_LNS_advance_pc :: uleb128 A ++ last) →
        m.Emits t p (DW_LNS_advance_pc :: uleb128 A ++ last).length (p.scaled A)
          (p.LineBase.signExtend 32 + BitVec.ofNat 32 Temp.toNat) := by
    intro last hlast hstep t m hindex hat
    have hrest := Machine.Emits.after_move (Machine.step_advance_pc hu hindex A hat.left)
      (Machine.Emits.last (hstep t _ hindex hat.right))
    rw [add_zero, zero_add] at hrest
    rw [List.length_append, List.length_cons, hlast]
    exact hrest
  -- A special opcode for a number of instructions that it has room for.
  have hspecial : ∀ k : Nat, ∀ Opcode : BitVec 64, Opcode ≤ 255 →
      Opcode.toNat = Params.DWARF2LineOpcodeBase.toNat + Temp.toNat + k * Params.DWARF2LineRange.toNat →
      ∀ (t : TableData) (m : Machine), m.Row.OpIndex = 0 → t.At m.Offset [byteOf Opcode] → m.step t p =
        some (m.emitted 1 (p.scaled (BitVec.ofNat 64 k))
          (p.LineBase.signExtend 32 + BitVec.ofNat 32 Temp.toNat)) := by
    intro k Opcode hle hop t m hindex hat
    refine Machine.step_special hu hindex (hp.range ▸ hT) ?_ hat
    rw [byteOf_toNat hle, hop, hp.base, hp.range, Nat.add_assoc]
  have hlarge : (256 + BitVec.ofNat 64 M : BitVec 64).toNat = 256 + M := by
    have h256 : (256 : BitVec 64).toNat = 256 := rfl
    rw [BitVec.toNat_add, BitVec.toNat_ofNat, h256]
    omega
  -- The opcode for a number of instructions below the bound does not wrap.
  have hopcode : ∀ x : BitVec 64, x.toNat < 256 + M →
      (Temp + Params.opcodeBase + x * Params.lineRange).toNat =
        Params.DWARF2LineOpcodeBase.toNat + Temp.toNat + x.toNat * Params.DWARF2LineRange.toNat := by
    intro x hx
    have hprod : x.toNat * Params.DWARF2LineRange.toNat ≤ 511 * 256 :=
      Nat.mul_le_mul (by omega) hR.le
    rw [BitVec.toNat_add, hTemp, BitVec.toNat_mul, toNat_lineRange, Nat.add_mod_mod]
    exact Nat.mod_eq_of_lt (by omega)
  unfold encodeAddr
  dsimp only
  split_ifs with hcopy hone htwo hneed hrest
  · refine ⟨_, rfl, ?_⟩
    intro t m hindex hat
    have hscaled : p.scaled A = 0 := by
      rw [hcopy.2]
      exact zero_mul _
    rw [hscaled, hzero (Or.inl hcopy.1)]
    exact Machine.Emits.last (Machine.step_copy hu hat)
  · refine ⟨_, rfl, ?_⟩
    intro t m hindex hat
    have hsmall : A.toNat < 256 + M := hlarge ▸ hone.1
    have hstep := hspecial A.toNat _ hone.2 (hopcode A hsmall) t m hindex hat
    rw [BitVec.ofNat_toNat, BitVec.setWidth_eq] at hstep
    exact Machine.Emits.last hstep
  · refine ⟨_, rfl, ?_⟩
    intro t m hindex hat
    have hsmall : A.toNat < 256 + M := hlarge ▸ htwo.1
    have hMA : M ≤ A.toNat := by
      by_contra hlt
      refine hone ⟨htwo.1, ?_⟩
      have hmul : (A.toNat + 1) * Params.DWARF2LineRange.toNat ≤
          M * Params.DWARF2LineRange.toNat := Nat.mul_le_mul_right _ (by omega)
      rw [Nat.succ_mul] at hmul
      rw [BitVec.le_def, hopcode A hsmall]
      show _ ≤ 255
      omega
    have hsub : (A - BitVec.ofNat 64 M).toNat = A.toNat - M := by
      have hofNat : (BitVec.ofNat 64 M).toNat = M := by
        rw [BitVec.toNat_ofNat]
        omega
      rw [BitVec.toNat_sub_of_le, hofNat]
      rw [BitVec.le_def, hofNat]
      exact hMA
    have hconst := Machine.step_const_add_pc hu hindex (hat.head)
    have hop := hopcode (A - BitVec.ofNat 64 M) (by omega)
    rw [hp.base, hp.range, hM] at hconst
    have hrest := Machine.Emits.after_move hconst
      (Machine.Emits.last (hspecial _ _ htwo.2 hop t _ hindex hat.tail))
    rw [BitVec.ofNat_toNat, BitVec.setWidth_eq, ← Prologue.scaled_add, add_sub_cancel,
      zero_add] at hrest
    exact hrest
  · refine ⟨_, rfl, hadvance _ rfl ?_⟩
    intro t m hindex hat
    rw [hzero (Or.inr hneed)]
    exact Machine.step_copy hu hat
  · refine ⟨_, rfl, hadvance _ rfl ?_⟩
    intro t m hindex hat
    have hstep := hspecial 0 _ hrest (by rw [hTemp, Nat.zero_mul, Nat.add_zero]) t m hindex hat
    have hscaled : p.scaled (BitVec.ofNat 64 0) = 0 := zero_mul _
    rw [hscaled] at hstep
    exact hstep
  · refine absurd ?_ hrest
    rw [BitVec.le_def, hTemp]
    exact hbase

theorem ScaleAddrDelta_scaled {MinInstLength : UInt8} (hmin : MinInstLength = p.MinInstLength)
    (hpos : MinInstLength ≠ 0) (hdvd : MinInstLength.toNat ∣ AddrDelta.toNat) :
    ∃ A, ScaleAddrDelta (MinInstLength.toBitVec.setWidth 32) AddrDelta = some A ∧
      p.scaled A = AddrDelta := by
  have hlt := MinInstLength.toNat_lt
  have hpos' : MinInstLength.toNat ≠ 0 := fun hzero => hpos (UInt8.toNat_inj.mp hzero)
  have hlen : (MinInstLength.toBitVec.setWidth 32).toNat = MinInstLength.toNat := by
    rw [BitVec.toNat_setWidth, UInt8.toNat_toBitVec]
    omega
  have hwide : ((MinInstLength.toBitVec.setWidth 32).setWidth 64).toNat = MinInstLength.toNat := by
    rw [BitVec.toNat_setWidth, hlen]
    omega
  have hscale : (MinInstLength.toBitVec.setWidth 64).toNat = MinInstLength.toNat := by
    rw [BitVec.toNat_setWidth, UInt8.toNat_toBitVec]
    omega
  unfold ScaleAddrDelta Prologue.scaled
  rw [← hmin]
  split_ifs with hone hzero
  · refine ⟨AddrDelta, rfl, ?_⟩
    have hval : MinInstLength.toBitVec.setWidth 64 = 1 := by
      apply BitVec.eq_of_toNat_eq
      rw [hscale, ← hlen, hone]
      rfl
    rw [hval, mul_one]
  · refine absurd ?_ hpos'
    rw [← hlen, hzero]
    rfl
  · refine ⟨_, rfl, ?_⟩
    apply BitVec.eq_of_toNat_eq
    rw [BitVec.toNat_mul, BitVec.toNat_udiv, hwide, hscale, Nat.div_mul_cancel hdvd]
    exact Nat.mod_eq_of_lt AddrDelta.isLt

theorem line_eq (Params : MCDwarfLineTableParams) (LineDelta : BitVec 64) :
    Params.DWARF2LineBase.signExtend 32 +
      BitVec.ofNat 32 (LineDelta - Params.lineBase).toNat = LineDelta.setWidth 32 := by
  have hlow : Params.DWARF2LineBase.signExtend 32 = Params.lineBase.setWidth 32 := by
    apply BitVec.eq_of_getLsbD_eq
    intro i hi
    have hi' : i < 64 := by omega
    rw [BitVec.getLsbD_setWidth, MCDwarfLineTableParams.lineBase, BitVec.getLsbD_signExtend,
      BitVec.getLsbD_signExtend]
    simp [hi, hi']
  rw [BitVec.ofNat_toNat, hlow, ← BitVec.setWidth_add _ _ (by decide), add_sub_cancel]

theorem toNat_neg_lineBase (h : Valid Params) :
    ((0 - Params.lineBase).toNat : Int) = -Params.DWARF2LineBase.toInt := by
  have hle := h.lineBase_le
  have hint : Params.lineBase.toInt = Params.DWARF2LineBase.toInt := by
    rw [MCDwarfLineTableParams.lineBase, BitVec.toInt_signExtend_of_le (by decide)]
  have hcond := BitVec.toInt_eq_toNat_cond Params.lineBase
  have hsub : (0 - Params.lineBase : BitVec 64).toNat = (2 ^ 64 - Params.lineBase.toNat) % 2 ^ 64 := by
    rw [BitVec.toNat_sub]
    rfl
  rw [hsub]
  split at hcond
  · omega
  · omega

theorem encode_emits (h : Valid Params) (hp : p.Has Params) (hpos : p.MinInstLength ≠ 0)
    (hline : LineDelta ≠ INT64_MAX) (hdvd : p.MinInstLength.toNat ∣ AddrDelta.toNat) :
    ∃ bytes, encode (p.MinInstLength.toBitVec.setWidth 32) Params LineDelta AddrDelta = some bytes ∧
      ∀ (t : TableData) (m : Machine), m.Row.OpIndex = 0 → t.At m.Offset bytes →
        m.Emits t p bytes.length AddrDelta (LineDelta.setWidth 32) := by
  obtain ⟨A, hscale, hA⟩ := ScaleAddrDelta_scaled rfl hpos hdvd
  have hu := h.usable hp
  simp only [encode, SpecialAddr_eq h, hscale, Option.bind_eq_bind, Option.bind_some, if_neg hline]
  split_ifs with hlong
  · -- DW_LNS_advance_line, and what is left for a line delta of zero.
    have hneg := toNat_neg_lineBase h
    have hlt := h.lineBase_lt
    have hspecial := h.special
    have hzero := line_eq Params 0
    rw [← hp.lineBase] at hzero
    obtain ⟨rest, hrest, hemits⟩ := encodeAddr_emits h hp 0 A (0 - Params.lineBase) true
      (by omega) (by omega) (fun _ => hzero)
    rw [hrest]
    refine ⟨_, rfl, ?_⟩
    intro t m hindex hat
    have hmove := Machine.Emits.after_move (Machine.step_advance_line hu LineDelta hat.left)
      (hemits t _ hindex hat.right)
    rw [hzero, hA, zero_add] at hmove
    rw [List.length_append, List.length_cons]
    simpa using hmove
  · rw [not_or, BitVec.not_le, BitVec.not_lt] at hlong
    have hline := line_eq Params LineDelta
    rw [← hp.lineBase] at hline
    have hshort : (LineDelta - Params.lineBase).toNat < Params.DWARF2LineRange.toNat := by
      rw [← toNat_lineRange]
      exact hlong.1
    have hsum : Params.DWARF2LineOpcodeBase.toNat + (LineDelta - Params.lineBase).toNat ≤ 255 := by
      have hR := Params.DWARF2LineRange.toNat_lt
      have hB := Params.DWARF2LineOpcodeBase.toNat_lt
      have hle := BitVec.le_def.mp hlong.2
      rw [BitVec.toNat_add, toNat_opcodeBase, Nat.mod_eq_of_lt (by omega)] at hle
      rw [Nat.add_comm]
      exact hle
    rw [← hline, ← hA]
    apply encodeAddr_emits h hp LineDelta A _ false hshort hsum
    rintro (rfl | hfalse)
    · rw [hline]
      rfl
    · exact nomatch hfalse

theorem encode_ends (h : Valid Params) (hp : p.Has Params) (hpos : p.MinInstLength ≠ 0)
    (hdvd : p.MinInstLength.toNat ∣ AddrDelta.toNat) :
    ∃ bytes, encode (p.MinInstLength.toBitVec.setWidth 32) Params INT64_MAX AddrDelta = some bytes ∧
      ∀ (t : TableData) (m : Machine), m.Row.OpIndex = 0 → t.At m.Offset bytes →
        m.Ends t p bytes.length AddrDelta := by
  obtain ⟨A, hscale, rfl⟩ := ScaleAddrDelta_scaled rfl hpos hdvd
  have hu := h.usable hp
  simp only [encode, SpecialAddr_eq h, hscale, Option.bind_eq_bind, Option.bind_some, if_true]
  refine ⟨_, rfl, ?_⟩
  intro t m hindex hat
  unfold encodeEndSequence at hat ⊢
  split_ifs at hat ⊢ with hconst hzero
  · have hmove := Machine.step_const_add_pc hu hindex hat.left
    rw [hp.base, hp.range, ← hconst] at hmove
    have hends := Machine.Ends.after_move hmove
      (Machine.Ends.last (Machine.step_end_sequence hat.right))
    rw [add_zero] at hends
    exact hends
  · have hends := Machine.Ends.after_move (Machine.step_advance_pc hu hindex A hat.left)
      (Machine.Ends.last (Machine.step_end_sequence hat.right))
    rw [add_zero] at hends
    rw [List.length_append]
    exact hends
  · have hA : p.scaled A = 0 := by
      rw [not_not.mp hzero]
      exact zero_mul _
    rw [hA]
    exact Machine.Ends.last (Machine.step_end_sequence hat)

end Encode

/-! ## The round trip -/

/-- The registers are advanced by the deltas and one row is appended, by the last opcode. -/
def Machine.AppendsOneRow (t : TableData) (p : Prologue) (m : Machine) (bytes : List UInt8)
    (LineDelta AddrDelta : BitVec 64) : Prop :=
  ∃ m', m.Leads t p m' ∧ m'.Offset = m.Offset + bytes.length ∧
    m'.Row.Line = m.Row.Line + LineDelta.setWidth 32 ∧
    m'.Row.Address.Address = m.Row.Address.Address + AddrDelta ∧
    ∃ row, m'.Rows = m.Rows ++ [row] ∧ row.Line = m'.Row.Line ∧ row.Address = m'.Row.Address

/-- The registers are advanced by the deltas and no row is appended. -/
def Machine.DropsRow (t : TableData) (p : Prologue) (m : Machine) (bytes : List UInt8)
    (LineDelta AddrDelta : BitVec 64) : Prop :=
  ∃ m', m.Leads t p m' ∧ m'.Offset = m.Offset + bytes.length ∧
    m'.Row.Line = m.Row.Line + LineDelta.setWidth 32 ∧
    m'.Row.Address.Address = m.Row.Address.Address + AddrDelta ∧ m'.Rows = m.Rows

/-- The row of the advanced address ends the sequence, and the registers are reset. -/
def Machine.EndsSequence (t : TableData) (p : Prologue) (m : Machine) (bytes : List UInt8)
    (AddrDelta : BitVec 64) : Prop :=
  ∃ m', m.Leads t p m' ∧ m'.Offset = m.Offset + bytes.length ∧
    m'.Row = .reset p.DefaultIsStmt ∧ m'.Sequence = .reset ∧
    m'.Rows = m.Rows ++ if m.TombstonedAddress then []
      else [{ m.Row.moved AddrDelta 0 with EndSequence := true }]

section RoundTrip

variable {Params : MCDwarfLineTableParams} {t : TableData} {p : Prologue} {m : Machine}

theorem Machine.Emits.appendsOneRow
    (h : m.Emits t p bytes.length AddrDelta (LineDelta.setWidth 32))
    (hlive : m.TombstonedAddress = false) : m.AppendsOneRow t p bytes LineDelta AddrDelta := by
  refine ⟨_, h, rfl, emitted_Line .., emitted_Address ..,
    m.Row.moved AddrDelta (LineDelta.setWidth 32), ?_, ?_, ?_⟩
  · rw [emitted_Rows, hlive]
    rfl
  · rw [emitted_Line]
    rfl
  · simp only [emitted, EmitRow_Row, hlive]
    rfl

theorem Machine.Emits.dropsRow (h : m.Emits t p bytes.length AddrDelta (LineDelta.setWidth 32))
    (htomb : m.TombstonedAddress = true) : m.DropsRow t p bytes LineDelta AddrDelta := by
  refine ⟨_, h, rfl, emitted_Line .., emitted_Address .., ?_⟩
  rw [emitted_Rows, htomb]
  exact List.append_nil m.Rows

theorem Machine.Ends.endsSequence (h : m.Ends t p bytes.length AddrDelta) :
    m.EndsSequence t p bytes AddrDelta :=
  ⟨_, h, rfl, rfl, rfl, EmitRow_Rows _⟩

/--
The bytes advance the registers by the deltas and append one row, which is
dropped while the address is a tombstone; the bytes for `INT64_MAX` end the
sequence.
-/
theorem encode_roundTrips (h : Valid Params) (DwarfVersion : Nat) (MinInstLength : UInt8)
    (hpos : MinInstLength ≠ 0) (StandardOpcodeLengths : List UInt8)
    (LineDelta AddrDelta : BitVec 64) (hdvd : MinInstLength.toNat ∣ AddrDelta.toNat) :
    ∃ bytes, encode (MinInstLength.toBitVec.setWidth 32) Params LineDelta AddrDelta = some bytes ∧
      ∀ (t : TableData) (m : Machine),
        m.Reachable t (.emitted Params DwarfVersion MinInstLength StandardOpcodeLengths) →
        t.At m.Offset bytes →
        if LineDelta = INT64_MAX then
          m.EndsSequence t (.emitted Params DwarfVersion MinInstLength StandardOpcodeLengths)
            bytes AddrDelta
        else if m.TombstonedAddress then
          m.DropsRow t (.emitted Params DwarfVersion MinInstLength StandardOpcodeLengths)
            bytes LineDelta AddrDelta
        else
          m.AppendsOneRow t (.emitted Params DwarfVersion MinInstLength StandardOpcodeLengths)
            bytes LineDelta AddrDelta := by
  generalize hprologue :
    Prologue.emitted Params DwarfVersion MinInstLength StandardOpcodeLengths = p
  have hsingle : p.SingleOp := hprologue ▸ Prologue.emitted_singleOp ..
  have hp : p.Has Params := by
    rw [← hprologue] at hsingle ⊢
    exact ⟨hsingle, rfl, rfl, rfl⟩
  have hmin : MinInstLength = p.MinInstLength := by rw [← hprologue]; rfl
  rw [hmin] at hpos hdvd ⊢
  by_cases hline : LineDelta = INT64_MAX
  · obtain ⟨bytes, hencode, hends⟩ := encode_ends h hp hpos hdvd
    rw [hline]
    refine ⟨bytes, hencode, ?_⟩
    intro t m hm hat
    rw [if_pos rfl]
    exact (hends t m (hm.OpIndex hsingle) hat).endsSequence
  · obtain ⟨bytes, hencode, hemits⟩ := encode_emits h hp hpos hline hdvd
    refine ⟨bytes, hencode, ?_⟩
    intro t m hm hat
    have hrun := hemits t m (hm.OpIndex hsingle) hat
    rw [if_neg hline]
    split
    · exact hrun.dropsRow ‹_›
    · exact hrun.appendsOneRow (Bool.not_eq_true _ ▸ ‹_›)

end RoundTrip

/-- The parameters that the assembler uses. -/
def defaultParams : MCDwarfLineTableParams := ⟨13, -5, 14⟩

theorem defaultParams_valid : Valid defaultParams := by
  constructor <;> decide

theorem encode_roundTrips_default :
    ∃ bytes, encode 1 defaultParams 1 1 = some bytes ∧ ∀ (t : TableData) (m : Machine),
      m.Reachable t (.emitted defaultParams 5 1 []) → t.At m.Offset bytes →
      if (1 : BitVec 64) = INT64_MAX then
        m.EndsSequence t (.emitted defaultParams 5 1 []) bytes 1
      else if m.TombstonedAddress then m.DropsRow t (.emitted defaultParams 5 1 []) bytes 1 1
      else m.AppendsOneRow t (.emitted defaultParams 5 1 []) bytes 1 1 :=
  encode_roundTrips defaultParams_valid 5 1 (by decide) [] 1 1 (by decide)

/-- `DW_LNE_set_address` with the tombstone, and the special opcode for the deltas 1 and 1. -/
def tombstoned : TableData where
  Data := [0, 9, 2, 255, 255, 255, 255, 255, 255, 255, 255, 33]
  size_lt := by decide
  IsLittleEndian := true
  find := fun _ => none

/-- The row after an address that was set to the tombstone is not appended. -/
theorem tombstoned_not_appendsOneRow :
    encode 1 defaultParams 1 1 = some [33] ∧
      ∃ m : Machine, m.Reachable tombstoned (.emitted defaultParams 5 1 []) ∧
        tombstoned.At m.Offset [33] ∧
        ¬m.AppendsOneRow tombstoned (.emitted defaultParams 5 1 []) [33] 1 1 := by
  refine ⟨by decide, ?_⟩
  obtain ⟨m, hm, hat, m₂, hstep, hrows, hlast⟩ : ∃ m : Machine,
      (Machine.start (.emitted defaultParams 5 1 []) [] 8 0).run tombstoned
        (.emitted defaultParams 5 1 []) 1 = some m ∧
      tombstoned.Data.drop m.Offset = [33] ∧
      ∃ m₂, m.step tombstoned (.emitted defaultParams 5 1 []) = some m₂ ∧ m₂.Rows = m.Rows ∧
        m₂.step tombstoned (.emitted defaultParams 5 1 []) = none :=
    ⟨_, rfl, rfl, _, rfl, rfl, rfl⟩
  refine ⟨m, ⟨[], 8, 0, 1, hm⟩, ⟨[], hat⟩, ?_⟩
  rintro ⟨m', ⟨opcodes, m₁, hrun, hstep', -⟩, -, -, -, row, happended, -, -⟩
  cases opcodes with
  | zero =>
    obtain rfl := Option.some.inj hrun
    obtain rfl := Option.some.inj (hstep.symm.trans hstep')
    have hlength := congrArg List.length (hrows.symm.trans happended)
    simp at hlength
  | succ opcodes =>
    rw [Machine.run, hstep] at hrun
    cases opcodes with
    | zero =>
      obtain rfl := Option.some.inj hrun
      exact nomatch hlast.symm.trans hstep'
    | succ opcodes =>
      change m₂.run tombstoned _ (opcodes + 1) = some m₁ at hrun
      rw [Machine.run, hlast] at hrun
      exact nomatch hrun

end SmlnjLlvm.DWARF
