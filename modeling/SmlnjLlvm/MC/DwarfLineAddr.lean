import SmlnjLlvm.Support.LEB128Decode

/-!
# Emission of line-table opcodes

`MCDwarfLineAddr::encode`. Address deltas are unsigned 64-bit numbers and line
deltas signed ones, biased by the line base in unsigned arithmetic.
-/

namespace SmlnjLlvm.MC

open LEB128

/-- `MCDwarfLineTableParams`: the first special opcode, the least line offset and their range. -/
structure MCDwarfLineTableParams where
  DWARF2LineOpcodeBase : UInt8
  DWARF2LineBase : BitVec 8
  DWARF2LineRange : UInt8
  deriving DecidableEq, Repr

namespace MCDwarfLineTableParams

variable (Params : MCDwarfLineTableParams)

def opcodeBase : BitVec 64 := Params.DWARF2LineOpcodeBase.toBitVec.setWidth 64

def lineBase : BitVec 64 := Params.DWARF2LineBase.signExtend 64

def lineRange : BitVec 64 := Params.DWARF2LineRange.toBitVec.setWidth 64

end MCDwarfLineTableParams

def DW_LNS_extended_op : UInt8 := 0x00
def DW_LNS_copy : UInt8 := 0x01
def DW_LNS_advance_pc : UInt8 := 0x02
def DW_LNS_advance_line : UInt8 := 0x03
def DW_LNS_const_add_pc : UInt8 := 0x08
def DW_LNE_end_sequence : UInt8 := 0x01

/-- `MinInsnLength` is the target's `getMinInstAlignment()`; a division by zero has no result. -/
def ScaleAddrDelta (MinInsnLength : BitVec 32) (AddrDelta : BitVec 64) : Option (BitVec 64) :=
  if MinInsnLength = 1 then some AddrDelta
  else if MinInsnLength = 0 then none
  else some (AddrDelta / MinInsnLength.setWidth 64)

def SpecialAddr (Params : MCDwarfLineTableParams) (op : BitVec 64) : Option (BitVec 64) :=
  if Params.DWARF2LineRange = 0 then none
  else some ((op - Params.opcodeBase) / Params.lineRange)

def INT64_MAX : BitVec 64 := 0x7fffffffffffffff

def encodeEndSequence (MaxSpecialAddrDelta AddrDelta : BitVec 64) : List UInt8 :=
  (if AddrDelta = MaxSpecialAddrDelta then [DW_LNS_const_add_pc]
    else if AddrDelta ≠ 0 then DW_LNS_advance_pc :: uleb128 AddrDelta
    else []) ++
  [DW_LNS_extended_op, 1, DW_LNE_end_sequence]

def byteOf (Opcode : BitVec 64) : UInt8 := UInt8.ofBitVec (Opcode.setWidth 8)

/--
What follows the line advance, if there was one: `Temp` is the biased line delta
and `AddrDelta` is scaled. An assertion that fails has no result.
-/
def encodeAddr (Params : MCDwarfLineTableParams) (MaxSpecialAddrDelta LineDelta AddrDelta Temp :
    BitVec 64) (NeedCopy : Bool) : Option (List UInt8) :=
  if LineDelta = 0 ∧ AddrDelta = 0 then some [DW_LNS_copy]
  else
    let Temp := Temp + Params.opcodeBase
    let Opcode := Temp + AddrDelta * Params.lineRange
    let Opcode' := Temp + (AddrDelta - MaxSpecialAddrDelta) * Params.lineRange
    if AddrDelta < 256 + MaxSpecialAddrDelta ∧ Opcode ≤ 255 then some [byteOf Opcode]
    else if AddrDelta < 256 + MaxSpecialAddrDelta ∧ Opcode' ≤ 255 then
      some [DW_LNS_const_add_pc, byteOf Opcode']
    else if NeedCopy then some (DW_LNS_advance_pc :: uleb128 AddrDelta ++ [DW_LNS_copy])
    else if Temp ≤ 255 then some (DW_LNS_advance_pc :: uleb128 AddrDelta ++ [byteOf Temp])
    else none

def encode (MinInsnLength : BitVec 32) (Params : MCDwarfLineTableParams)
    (LineDelta AddrDelta : BitVec 64) : Option (List UInt8) := do
  let MaxSpecialAddrDelta ← SpecialAddr Params 255
  let AddrDelta ← ScaleAddrDelta MinInsnLength AddrDelta
  if LineDelta = INT64_MAX then return encodeEndSequence MaxSpecialAddrDelta AddrDelta
  let Temp := LineDelta - Params.lineBase
  if Params.lineRange ≤ Temp ∨ 255 < Temp + Params.opcodeBase then
    let rest ← encodeAddr Params MaxSpecialAddrDelta 0 AddrDelta (0 - Params.lineBase) true
    return DW_LNS_advance_line :: sleb128 LineDelta ++ rest
  else encodeAddr Params MaxSpecialAddrDelta LineDelta AddrDelta Temp false

end SmlnjLlvm.MC
