import SmlnjLlvm.Support.DataExtractor

/-!
# The line-number state machine

One turn of the loop of `DWARFDebugLine::LineTable::parse` over a line-number
program. What is reported to the error handler or dumped is not modelled. The
data end where the table does.
-/

namespace SmlnjLlvm.DWARF

/-- What the program reads of the prologue. -/
structure Prologue where
  MinInstLength : UInt8
  MaxOpsPerInst : UInt8
  DefaultIsStmt : Bool
  LineBase : BitVec 8
  LineRange : UInt8
  OpcodeBase : UInt8
  StandardOpcodeLengths : List UInt8

structure FileNameEntry where
  Name : List UInt8
  DirIdx : BitVec 64
  ModTime : BitVec 64
  Length : BitVec 64
  deriving DecidableEq, Repr

def UndefSection : BitVec 64 := BitVec.allOnes 64

structure SectionedAddress where
  Address : BitVec 64
  SectionIndex : BitVec 64
  deriving DecidableEq, Repr

structure Row where
  Address : SectionedAddress
  Line : BitVec 32
  Column : BitVec 16
  File : BitVec 16
  Discriminator : BitVec 32
  Isa : BitVec 8
  OpIndex : BitVec 8
  IsStmt : Bool
  BasicBlock : Bool
  EndSequence : Bool
  PrologueEnd : Bool
  EpilogueBegin : Bool
  deriving DecidableEq, Repr

def Row.postAppend (r : Row) : Row :=
  { r with Discriminator := 0, BasicBlock := false, PrologueEnd := false, EpilogueBegin := false }

def Row.reset (DefaultIsStmt : Bool) : Row where
  Address := ⟨0, UndefSection⟩
  Line := 1
  Column := 0
  File := 1
  Discriminator := 0
  Isa := 0
  OpIndex := 0
  IsStmt := DefaultIsStmt
  BasicBlock := false
  EndSequence := false
  PrologueEnd := false
  EpilogueBegin := false

structure Sequence where
  LowPC : BitVec 64
  HighPC : BitVec 64
  SectionIndex : BitVec 64
  FirstRowIndex : BitVec 32
  LastRowIndex : BitVec 32
  Empty : Bool
  deriving DecidableEq, Repr

def Sequence.reset : Sequence := ⟨0, 0, UndefSection, 0, 0, true⟩

def Sequence.isValid (s : Sequence) : Bool :=
  !s.Empty && decide (s.LowPC < s.HighPC) && decide (s.FirstRowIndex < s.LastRowIndex)

/-- The parsing state, the table it fills and the variables of the loop. -/
structure Machine where
  Offset : Nat
  Row : Row
  Sequence : Sequence
  Rows : List DWARF.Row
  Sequences : List DWARF.Sequence
  FileNames : List FileNameEntry
  AddressSize : UInt8
  TombstonedAddress : Bool
  deriving DecidableEq, Repr

/-- A relocation that the object file has for an offset. -/
structure RelocAddrEntry where
  SectionIndex : BitVec 64
  resolve : BitVec 64 → BitVec 64

/-- `DWARFDataExtractor`: the data, whose size has 64 bits, and the relocations of their section. -/
structure TableData extends DataExtractor where
  size_lt : Data.length < 2 ^ 64
  find : Nat → Option RelocAddrEntry

def TableData.getRelocatedValue (t : TableData) (Size : Nat) (C : Cursor) :
    (BitVec 64 × BitVec 64) × Cursor :=
  let (LocData, C') := t.getU Size C
  match t.find C.Offset with
  | some E =>
    if C'.ok then ((E.resolve (BitVec.ofNat 64 LocData), E.SectionIndex), C')
    else ((BitVec.ofNat 64 LocData, UndefSection), C')
  | none => ((BitVec.ofNat 64 LocData, UndefSection), C')

def computeTombstoneAddress (AddressByteSize : Nat) : BitVec 64 :=
  BitVec.allOnes 64 >>> ((8 - AddressByteSize) * 8)

namespace Row

variable (p : Prologue)

def advanceAddrOpIndex (OperationAdvance : BitVec 64) (r : Row) : Row :=
  let MaxOpsPerInst := (if p.MaxOpsPerInst = 0 then 1 else p.MaxOpsPerInst).toBitVec.setWidth 64
  let Operation := r.OpIndex.setWidth 64 + OperationAdvance
  let AddrOffset := Operation / MaxOpsPerInst * p.MinInstLength.toBitVec.setWidth 64
  { r with
    Address := { r.Address with Address := r.Address.Address + AddrOffset }
    OpIndex := (Operation % MaxOpsPerInst).setWidth 8 }

def advanceForOpcode (Opcode : UInt8) (r : Row) : Row × UInt8 :=
  let OpcodeValue := if Opcode = 0x08 then 255 else Opcode
  let AdjustedOpcode := OpcodeValue - p.OpcodeBase
  let OperationAdvance := if p.LineRange ≠ 0 then AdjustedOpcode / p.LineRange else 0
  (r.advanceAddrOpIndex p (OperationAdvance.toBitVec.setWidth 64), AdjustedOpcode)

def handleSpecialOpcode (Opcode : UInt8) (r : Row) : Row :=
  let (r, AdjustedOpcode) := r.advanceForOpcode p Opcode
  let LineOffset : BitVec 32 :=
    if p.LineRange ≠ 0 then
      p.LineBase.signExtend 32 + (AdjustedOpcode % p.LineRange).toBitVec.setWidth 32
    else 0
  { r with Line := r.Line + LineOffset }

end Row

namespace Machine

def appendRowToMatrix (m : Machine) : Machine :=
  let RowNumber := BitVec.ofNat 32 m.Rows.length
  let Sequence :=
    if m.Sequence.Empty then
      -- Record the beginning of instruction sequence.
      { m.Sequence with
        Empty := false, LowPC := m.Row.Address.Address, FirstRowIndex := RowNumber }
    else m.Sequence
  let m := { m with Sequence := Sequence, Rows := m.Rows ++ [m.Row] }
  let m :=
    if m.Row.EndSequence then
      -- Record the end of instruction sequence.
      let Sequence :=
        { m.Sequence with
          HighPC := m.Row.Address.Address
          LastRowIndex := RowNumber + 1
          SectionIndex := m.Row.Address.SectionIndex }
      { m with
        Sequences := if Sequence.isValid then m.Sequences ++ [Sequence] else m.Sequences
        Sequence := .reset }
    else m
  { m with Row := m.Row.postAppend }

def EmitRow (m : Machine) : Machine := if m.TombstonedAddress then m else m.appendRowToMatrix

def resetRowAndSequence (p : Prologue) (m : Machine) : Machine :=
  { m with Row := .reset p.DefaultIsStmt, Sequence := .reset }

def start (p : Prologue) (FileNames : List FileNameEntry) (AddressSize : UInt8) (Offset : Nat) :
    Machine where
  Offset := Offset
  Row := .reset p.DefaultIsStmt
  Sequence := .reset
  Rows := []
  Sequences := []
  FileNames := FileNames
  AddressSize := AddressSize
  TombstonedAddress := false

variable (t : TableData) (p : Prologue)

def setAddress (Len : BitVec 64) (m : Machine) (C : Cursor) : Machine × Cursor :=
  let OpcodeAddressSize := (Len - 1).toNat
  let ((Address, SectionIndex), C') := t.getRelocatedValue OpcodeAddressSize C
  if OpcodeAddressSize = 1 ∨ OpcodeAddressSize = 2 ∨ OpcodeAddressSize = 4 ∨
      OpcodeAddressSize = 8 then
    ({ m with
        Row := { m.Row with Address := ⟨Address, SectionIndex⟩, OpIndex := 0 }
        TombstonedAddress := Address = computeTombstoneAddress OpcodeAddressSize
        -- Restore the address size if the extractor already had it.
        AddressSize :=
          if m.AddressSize ≠ 0 then m.AddressSize else UInt8.ofNat OpcodeAddressSize }, C')
  else (m, t.skip C OpcodeAddressSize)

def defineFile (m : Machine) (C : Cursor) : Option (Machine × Cursor) := do
  let (Name, C) := t.getCStr C
  let (DirIdx, C) ← t.getULEB128 C
  let (ModTime, C) ← t.getULEB128 C
  let (Length, C) ← t.getULEB128 C
  return ({ m with FileNames := m.FileNames ++ [⟨Name, DirIdx, ModTime, Length⟩] }, C)

def extendedEffect (SubOpcode : UInt8) (Len : BitVec 64) (m : Machine) (C : Cursor) :
    Option Machine :=
  match SubOpcode.toNat with
  -- DW_LNE_end_sequence
  | 1 => some ({ m with Row := { m.Row with EndSequence := true } }.EmitRow.resetRowAndSequence p)
  -- DW_LNE_set_address
  | 2 => some (m.setAddress t Len C).1
  -- DW_LNE_define_file
  | 3 => (m.defineFile t C).map (·.1)
  -- DW_LNE_set_discriminator
  | 4 => (t.getULEB128 C).map fun (Discriminator, _) =>
    { m with Row := { m.Row with Discriminator := Discriminator.setWidth 32 } }
  | _ => some m

/-- What comes after a zero opcode. The claimed length decides where the next opcode is. -/
def extendedOpcode (m : Machine) (C : Cursor) : Option Machine := do
  let (Len, C) ← t.getULEB128 C
  let ExtOffset := C.Offset
  -- Tolerate zero-length; assume length is correct and soldier on.
  if Len = 0 then some { m with Offset := C.Offset }
  else
    let (SubOpcode, C) := t.getU8 C
    let m ← m.extendedEffect t p SubOpcode Len C
    some { m with Offset := (ExtOffset + Len.toNat) % 2 ^ 64 }

def parseULEB128 (w : Nat) (C : Cursor) : Option (BitVec w × Cursor) := do
  let (Value, C) ← t.getULEB128 C
  if C.ok then some (Value.setWidth w, C) else none

def skipOperands : Nat → Cursor → Option Cursor
  | 0, C => some C
  | OpcodeLength + 1, C => do
      let (_, C) ← parseULEB128 t 64 C
      skipOperands OpcodeLength C

def standardEffect (Opcode : UInt8) (m : Machine) (C : Cursor) : Option (Machine × Cursor) :=
  match Opcode.toNat with
  -- DW_LNS_copy
  | 1 => some (m.EmitRow, C)
  -- DW_LNS_advance_pc
  | 2 => (parseULEB128 t 64 C).map fun (Operand, C) =>
    ({ m with Row := m.Row.advanceAddrOpIndex p Operand }, C)
  -- DW_LNS_advance_line
  | 3 => do
      let (LineDelta, C) ← t.getSLEB128 C
      if C.ok then
        some ({ m with Row := { m.Row with Line := m.Row.Line + LineDelta.setWidth 32 } }, C)
      else none
  -- DW_LNS_set_file
  | 4 => (parseULEB128 t 16 C).map fun (File, C) =>
    ({ m with Row := { m.Row with File := File } }, C)
  -- DW_LNS_set_column
  | 5 => (parseULEB128 t 16 C).map fun (Column, C) =>
    ({ m with Row := { m.Row with Column := Column } }, C)
  -- DW_LNS_negate_stmt
  | 6 => some ({ m with Row := { m.Row with IsStmt := !m.Row.IsStmt } }, C)
  -- DW_LNS_set_basic_block
  | 7 => some ({ m with Row := { m.Row with BasicBlock := true } }, C)
  -- DW_LNS_const_add_pc
  | 8 => some ({ m with Row := (m.Row.advanceForOpcode p Opcode).1 }, C)
  -- DW_LNS_fixed_advance_pc
  | 9 =>
    let ((PCOffset, _), C) := t.getRelocatedValue 2 C
    let Address := m.Row.Address.Address + (PCOffset.setWidth 16).setWidth 64
    if C.ok then
      some ({ m with Row := { m.Row with Address.Address := Address, OpIndex := 0 } }, C)
    else none
  -- DW_LNS_set_prologue_end
  | 10 => some ({ m with Row := { m.Row with PrologueEnd := true } }, C)
  -- DW_LNS_set_epilogue_begin
  | 11 => some ({ m with Row := { m.Row with EpilogueBegin := true } }, C)
  -- DW_LNS_set_isa
  | 12 => (parseULEB128 t 8 C).map fun (Isa, C) => ({ m with Row := { m.Row with Isa := Isa } }, C)
  | _ => do
      let OpcodeLength ← p.StandardOpcodeLengths[Opcode.toNat - 1]?
      let C ← skipOperands t OpcodeLength.toNat C
      some (m, C)

def standardOpcode (Opcode : UInt8) (m : Machine) (C : Cursor) : Option Machine := do
  let (m, C) ← m.standardEffect t p Opcode C
  some { m with Offset := C.Offset }

def specialOpcode (Opcode : UInt8) (m : Machine) (C : Cursor) : Machine :=
  { { m with Row := m.Row.handleSpecialOpcode p Opcode }.EmitRow with Offset := C.Offset }

def step (m : Machine) : Option Machine :=
  if m.Offset < t.Data.length then
    let (Opcode, C) := t.getU8 (.start m.Offset)
    if Opcode = 0 then m.extendedOpcode t p C
    else if Opcode < p.OpcodeBase then m.standardOpcode t p Opcode C
    else some (m.specialOpcode p Opcode C)
  else none

def run : Nat → Machine → Option Machine
  | 0, m => some m
  | opcodes + 1, m => do run opcodes (← m.step t p)

/-- The program can be in the state, with any file names, address size and first offset. -/
def Reachable (m : Machine) : Prop :=
  ∃ FileNames AddressSize Offset opcodes,
    (start p FileNames AddressSize Offset).run t p opcodes = some m

end Machine

end SmlnjLlvm.DWARF
