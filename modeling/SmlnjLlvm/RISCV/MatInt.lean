import SmlnjLlvm.RISCV.Instruction

/-!
# Materialising an integer

The sequence of a recursive decomposition, and the rewrites that replace it by
one that is shorter. A failed assertion has no result, and neither has a
recursion that the fuel does not cover.
-/

namespace SmlnjLlvm.RISCV

open Support

/-- The features that the sequences depend on. -/
structure MCSubtargetInfo where
  Feature64Bit : Bool
  FeatureStdExtZba : Bool
  FeatureStdExtZbb : Bool
  FeatureStdExtZbs : Bool
  FeatureStdExtZbkb : Bool
  FeatureVendorXTHeadBb : Bool
  TuneLUIADDIFusion : Bool

def MCSubtargetInfo.XLen (STI : MCSubtargetInfo) : Nat := if STI.Feature64Bit then 64 else 32

/-- What is left of a value without its low 12 bits: the shift, the rest and its extension. -/
structure Shifted where
  ShiftAmount : Nat
  Val : BitVec 64
  Unsigned : Bool

def upperOnes : BitVec 64 := (0xffffffff : BitVec 64) <<< 32

def reduceShift (STI : MCSubtargetInfo) (s : Shifted) : Shifted :=
  if 12 < s.ShiftAmount ∧ ¬isInt 12 s.Val then
    if isInt 32 (s.Val <<< 12) then
      { ShiftAmount := s.ShiftAmount - 12, Val := s.Val <<< 12, Unsigned := false }
    else if isUInt 32 (s.Val <<< 12) ∧ STI.FeatureStdExtZba then
      { ShiftAmount := s.ShiftAmount - 12, Val := s.Val <<< 12 ||| upperOnes, Unsigned := true }
    else s
  else s

def fillUpper (STI : MCSubtargetInfo) (s : Shifted) : Shifted :=
  if isUInt 32 s.Val ∧ ¬isInt 32 s.Val ∧ STI.FeatureStdExtZba then
    { s with Val := s.Val ||| upperOnes, Unsigned := true }
  else s

def shiftOut (STI : MCSubtargetInfo) (Val : BitVec 64) : Shifted :=
  if isInt 32 Val then { ShiftAmount := 0, Val := Val, Unsigned := false }
  else
    let ShiftAmount := countr_zero Val
    fillUpper STI (reduceShift STI
      { ShiftAmount := ShiftAmount, Val := Val.sshiftRight ShiftAmount, Unsigned := false })

def generateInstSeqImpl (STI : MCSubtargetInfo) : Nat → BitVec 64 → Option InstSeq
  | 0, _ => none
  | fuel + 1, Val =>
    if STI.FeatureStdExtZbs ∧ isPowerOf2_64 Val ∧ (¬isInt 32 Val ∨ Val = 0x800) then
      emplace_back .BSETI (BitVec.ofNat 64 (Log2_64 Val)) []
    else if isInt 32 Val then do
      let Hi20 := (Val + 0x800).sshiftRight 12 &&& 0xFFFFF
      let Lo12 := SignExtend64 12 Val
      let Res ← if Hi20 ≠ 0 then emplace_back .LUI Hi20 [] else some []
      if Lo12 ≠ 0 ∨ Hi20 = 0 then
        emplace_back (if STI.Feature64Bit ∧ Hi20 ≠ 0 then .ADDIW else .ADDI) Lo12 Res
      else some Res
    else do
      guard (STI.Feature64Bit = true)
      let Lo12 := SignExtend64 12 Val
      let s := shiftOut STI (Val - Lo12)
      let Res ← generateInstSeqImpl STI fuel s.Val
      let Res ←
        if s.ShiftAmount ≠ 0 then
          emplace_back (if s.Unsigned then .SLLI_UW else .SLLI)
            (BitVec.ofNat 64 s.ShiftAmount) Res
        else some Res
      if Lo12 ≠ 0 then emplace_back .ADDI Lo12 Res else some Res

/-! ## Rewrites -/

section Rewrites

variable (STI : MCSubtargetInfo) (fuel : Nat) (Val : BitVec 64)

def improve (Res TmpSeq : InstSeq) (Opc : Opcode) (Imm : BitVec 64) : Option InstSeq :=
  if TmpSeq.length + 1 < Res.length then emplace_back Opc Imm TmpSeq else some Res

def improveOrFirst (Res TmpSeq : InstSeq) (Opc : Opcode) (Imm : BitVec 64) : Option InstSeq :=
  if TmpSeq.length + 1 < Res.length ∨ (Res = [] ∧ TmpSeq.length < 8) then
    emplace_back Opc Imm TmpSeq
  else some Res

def generateInstSeqLeadingZeros (Res : InstSeq) : Option InstSeq := do
  guard (0 < Val.toInt)
  let LeadingZeros := countl_zero Val
  let ShiftedVal := Val <<< LeadingZeros ||| (← maskTrailingOnes LeadingZeros)
  let TmpSeq ← generateInstSeqImpl STI fuel ShiftedVal
  let Res ← improveOrFirst Res TmpSeq .SRLI (BitVec.ofNat 64 LeadingZeros)
  let ShiftedVal := ShiftedVal &&& (← maskTrailingZeros LeadingZeros)
  let TmpSeq ← generateInstSeqImpl STI fuel ShiftedVal
  let Res ← improveOrFirst Res TmpSeq .SRLI (BitVec.ofNat 64 LeadingZeros)
  if LeadingZeros = 32 ∧ STI.FeatureStdExtZba then
    let LeadingOnesVal := Val ||| (← maskLeadingOnes LeadingZeros)
    let TmpSeq ← generateInstSeqImpl STI fuel LeadingOnesVal
    improveOrFirst Res TmpSeq .ADD_UW 0
  else some Res

def trailingZeros (Res : InstSeq) : Option InstSeq :=
  if Val &&& 0xfff ≠ 0 ∧ Val &&& 1 = 0 ∧ 2 ≤ Res.length then do
    let TrailingZeros := countr_zero Val
    let ShiftedVal := Val.sshiftRight TrailingZeros
    let IsShiftedCompressible := isInt 6 ShiftedVal && !STI.TuneLUIADDIFusion
    let TmpSeq ← generateInstSeqImpl STI fuel ShiftedVal
    if TmpSeq.length + 1 < Res.length ∨ IsShiftedCompressible then
      emplace_back .SLLI (BitVec.ofNat 64 TrailingZeros) TmpSeq
    else some Res
  else some Res

def adjustLow (Res : InstSeq) : Option InstSeq :=
  if Val &&& 0xfff ≠ 0 ∧ Val &&& 0x1800 = 0x1000 then do
    let Imm12 := -(0x800 - (Val &&& 0xfff))
    let TmpSeq ← generateInstSeqImpl STI fuel (Val - Imm12)
    improve Res TmpSeq .ADDI Imm12
  else some Res

def leadingZeros (Res : InstSeq) : Option InstSeq :=
  if 0 < Val.toInt ∧ 2 < Res.length then generateInstSeqLeadingZeros STI fuel Val Res
  else some Res

def invert (Res : InstSeq) : Option InstSeq :=
  if Val.toInt < 0 ∧ 3 < Res.length then do
    let TmpSeq ← generateInstSeqLeadingZeros STI fuel (~~~Val) []
    if TmpSeq ≠ [] ∧ TmpSeq.length + 1 < Res.length then
      emplace_back .XORI (BitVec.allOnes 64) TmpSeq
    else some Res
  else some Res

def pack (Res : InstSeq) : Option InstSeq :=
  if 2 < Res.length ∧ STI.FeatureStdExtZbkb then do
    let LoVal := SignExtend64 32 Val
    let HiVal := SignExtend64 32 (Val.sshiftRight 32)
    if LoVal = HiVal then
      let TmpSeq ← generateInstSeqImpl STI fuel LoVal
      improve Res TmpSeq .PACK 0
    else some Res
  else some Res

def bit31 (Res : InstSeq) : Option InstSeq := do
  let (Opc, NewVal) : Opcode × BitVec 64 :=
    if Val.toInt < 0 then (.BCLRI, Val ||| 0x80000000) else (.BSETI, Val &&& ~~~0x80000000)
  if isInt 32 NewVal then
    let TmpSeq ← generateInstSeqImpl STI fuel NewVal
    improve Res TmpSeq Opc 31
  else some Res

def eachBit (Opc : Opcode) : Nat → BitVec 32 → InstSeq → Option InstSeq
  | 0, Hi, TmpSeq => if Hi ≠ 0 then none else some TmpSeq
  | n + 1, Hi, TmpSeq =>
    if Hi ≠ 0 then do
      let TmpSeq ← emplace_back Opc (BitVec.ofNat 64 (countr_zero Hi + 32)) TmpSeq
      eachBit Opc n (Hi &&& (Hi - 1)) TmpSeq
    else some TmpSeq

def upperBits (Res : InstSeq) : Option InstSeq := do
  let Lo := Lo_32 Val
  let Hi := Hi_32 Val
  let TmpSeq ← generateInstSeqImpl STI fuel (Lo.signExtend 64)
  let keepShorter (TmpSeq : InstSeq) : InstSeq :=
    if TmpSeq.length < Res.length then TmpSeq else Res
  if 0 < Lo.toInt ∧ TmpSeq.length + popcount Hi < Res.length then
    (eachBit .BSETI 32 Hi TmpSeq).map keepShorter
  else if Lo.toInt < 0 ∧ TmpSeq.length + popcount (~~~Hi) < Res.length then
    (eachBit .BCLRI 32 (~~~Hi) TmpSeq).map keepShorter
  else some Res

def singleBits (Res : InstSeq) : Option InstSeq :=
  if 2 < Res.length ∧ STI.FeatureStdExtZbs then do
    let Res ← bit31 STI fuel Val Res
    upperBits STI fuel Val Res
  else some Res

def selectDivisor (Val : BitVec 64) : Option (BitVec 64 × Opcode) :=
  if Val.srem 3 = 0 ∧ isInt 32 (Val.sdiv 3) then some (3, .SH1ADD)
  else if Val.srem 5 = 0 ∧ isInt 32 (Val.sdiv 5) then some (5, .SH2ADD)
  else if Val.srem 9 = 0 ∧ isInt 32 (Val.sdiv 9) then some (9, .SH3ADD)
  else none

def shiftAdd (Res : InstSeq) : Option InstSeq :=
  if 2 < Res.length ∧ STI.FeatureStdExtZba then
    match selectDivisor Val with
    | some (Div, Opc) => do
        let TmpSeq ← generateInstSeqImpl STI fuel (Val.sdiv Div)
        improve Res TmpSeq Opc 0
    | none =>
      let Hi52 := (Val + 0x800) &&& ~~~0xfff
      let Lo12 := SignExtend64 12 Val
      match selectDivisor Hi52 with
      | some (Div, Opc) => do
          guard (Lo12 ≠ 0)
          let TmpSeq ← generateInstSeqImpl STI fuel (Hi52.sdiv Div)
          if TmpSeq.length + 2 < Res.length then
            let TmpSeq ← emplace_back Opc 0 TmpSeq
            emplace_back .ADDI Lo12 TmpSeq
          else some Res
      | none => some Res
  else some Res

def extractRotateInfo (Val : BitVec 64) : Nat :=
  let LeadingOnes := countl_one Val
  let TrailingOnes := countr_one Val
  if 0 < TrailingOnes ∧ TrailingOnes < 64 ∧ 64 - 12 < LeadingOnes + TrailingOnes then
    64 - TrailingOnes
  else
    let UpperTrailingOnes := countr_one (Hi_32 Val)
    let LowerLeadingOnes := countl_one (Lo_32 Val)
    if UpperTrailingOnes < 32 ∧ 64 - 12 < UpperTrailingOnes + LowerLeadingOnes then
      32 - UpperTrailingOnes
    else 0

def rotate (Res : InstSeq) : Option InstSeq :=
  if 2 < Res.length ∧ (STI.FeatureStdExtZbb ∨ STI.FeatureVendorXTHeadBb) then
    let Rotate := extractRotateInfo Val
    if Rotate ≠ 0 then do
      let NegImm12 := rotl Val Rotate
      guard (isInt 12 NegImm12 = true)
      let TmpSeq ← emplace_back .ADDI NegImm12 []
      emplace_back (if STI.FeatureStdExtZbb then .RORI else .TH_SRRI) (BitVec.ofNat 64 Rotate)
        TmpSeq
    else some Res
  else some Res

def generateInstSeq : Option InstSeq := do
  let Res ← generateInstSeqImpl STI fuel Val
  let Res ← trailingZeros STI fuel Val Res
  if Res.length ≤ 2 then return Res
  guard (STI.Feature64Bit = true)
  let Res ← adjustLow STI fuel Val Res
  let Res ← leadingZeros STI fuel Val Res
  let Res ← invert STI fuel Val Res
  let Res ← pack STI fuel Val Res
  let Res ← singleBits STI fuel Val Res
  let Res ← shiftAdd STI fuel Val Res
  rotate STI Val Res

def generateTwoRegInstSeq : Option (InstSeq × Nat × Opcode) := do
  let LoVal := SignExtend64 32 Val
  if LoVal = 0 then return ([], 0, .ADD)
  let Tmp := Val - LoVal
  guard (Tmp ≠ 0)
  let TzLo := countr_zero LoVal
  let TzHi := countr_zero Tmp
  guard (TzLo < 32 ∧ 32 ≤ TzHi)
  let ShiftAmt := TzHi - TzLo
  if Tmp = LoVal <<< ShiftAmt then
    let Res ← generateInstSeq STI fuel LoVal
    return (Res, ShiftAmt, .ADD)
  if STI.FeatureStdExtZba ∧ Lo_32 Val = Hi_32 Val then
    let Res ← generateInstSeq STI fuel LoVal
    return (Res, 32, .ADD_UW)
  return ([], ShiftAmt, .ADD)

end Rewrites

end SmlnjLlvm.RISCV
