import SmlnjLlvm.AArch64.MoveImmediate

/-!
# Immediate expansion

Immediates as sequences of moves and operations with logical immediates. What
cannot be done has no result; of an attempt that is not a success the result is
`some none`.
-/

namespace SmlnjLlvm.AArch64

open Chunks Support Loop

def shl (x : BitVec 64) (n : Nat) : Option (BitVec 64) := do
  guard (n < 64)
  some (x <<< n)

def shr (x : BitVec 64) (n : Nat) : Option (BitVec 64) := do
  guard (n < 64)
  some (x >>> n)

def getChunk (Imm : BitVec 64) (ChunkIdx : Nat) : Option (BitVec 64) := do
  guard (ChunkIdx < 4)
  some (Imm >>> (ChunkIdx * 16) &&& 0xFFFF)

def movk (Imm16 : BitVec 64) (ShiftAmt : Nat) : Option ImmInsnModel := do
  let Op2 ← getShifterImm ShiftAmt
  some { Opcode := .MOVKXi, Op1 := Imm16, Op2 := Op2 }

def canUseOrr (Chunk : BitVec 64) : Option (Option (BitVec 64)) :=
  processLogicalImmediate (Chunk <<< 48 ||| Chunk <<< 32 ||| Chunk <<< 16 ||| Chunk) 64

def addCount (Chunk : BitVec 64) : List (BitVec 64 × Nat) → List (BitVec 64 × Nat)
  | [] => [(Chunk, 1)]
  | (c, n) :: rest => if c = Chunk then (c, n + 1) :: rest else (c, n) :: addCount Chunk rest

def countChunks (UImm : BitVec 64) : Option (List (BitVec 64 × Nat)) :=
  [0, 1, 2, 3].foldlM (fun Counts Idx => do
    let Chunk ← getChunk UImm Idx
    some (addCount Chunk Counts)) []

/-- The first chunk from `ShiftAmt` on that is another one, with as many turns as are left. -/
def findOther (UImm ChunkVal : BitVec 64) : Nat → Nat → Nat
  | 0, ShiftAmt => ShiftAmt
  | n + 1, ShiftAmt =>
    if UImm >>> ShiftAmt &&& 0xFFFF ≠ ChunkVal then ShiftAmt
    else findOther UImm ChunkVal n (ShiftAmt + 16)

def replicateChunk (UImm ChunkVal : BitVec 64) (CountThree : Bool) (Encoding : BitVec 64) :
    Option (List ImmInsnModel) := do
  let orr : ImmInsnModel := { Opcode := .ORRXri, Op1 := 0, Op2 := Encoding }
  let ShiftAmt := findOther UImm ChunkVal 4 0
  let Imm16 ← shr UImm ShiftAmt
  let first ← movk (Imm16 &&& 0xFFFF) ShiftAmt
  if CountThree then some [orr, first]
  else
    let ShiftAmt := findOther UImm ChunkVal (3 - ShiftAmt / 16) (ShiftAmt + 16)
    let Imm16 ← shr UImm ShiftAmt
    let second ← movk (Imm16 &&& 0xFFFF) ShiftAmt
    some [orr, first, second]

def replicateFirst (UImm : BitVec 64) :
    List (BitVec 64 × Nat) → Option (Option (List ImmInsnModel))
  | [] => some none
  | (ChunkVal, Count) :: rest =>
    if Count ≠ 2 ∧ Count ≠ 3 then replicateFirst UImm rest
    else do
      match ← canUseOrr ChunkVal with
      | none => replicateFirst UImm rest
      | some Encoding => (replicateChunk UImm ChunkVal (Count = 3) Encoding).map some

def tryToreplicateChunks (traverse : List (BitVec 64 × Nat) → List (BitVec 64 × Nat))
    (UImm : BitVec 64) : Option (Option (List ImmInsnModel)) := do
  let Counts ← countChunks UImm
  replicateFirst UImm (traverse Counts)

def isStartChunk (Chunk : BitVec 64) : Bool :=
  if Chunk = 0 ∨ Chunk = BitVec.allOnes 64 then false else isMask (~~~Chunk)

def isEndChunk (Chunk : BitVec 64) : Bool :=
  if Chunk = 0 ∨ Chunk = BitVec.allOnes 64 then false else isMask Chunk

def updateImm (Imm : BitVec 64) (Idx : Nat) (Clear : Bool) : BitVec 64 :=
  if Clear then Imm &&& ~~~((0xFFFF : BitVec 64) <<< (Idx * 16))
  else Imm ||| (0xFFFF : BitVec 64) <<< (Idx * 16)

def findEnds (UImm : BitVec 64) : Option (Option Nat × Option Nat) :=
  [0, 1, 2, 3].foldlM (fun (s : Option Nat × Option Nat) Idx => do
    let Chunk ← getChunk UImm Idx
    let Chunk := (Chunk <<< 48).sshiftRight 48
    some (if isStartChunk Chunk then (some Idx, s.2)
      else if isEndChunk Chunk then (s.1, some Idx) else s)) (none, none)

/-- The immediate that is patched, and the places of the first patch and of the last one after it. -/
structure Patches where
  OrrImm : BitVec 64
  FirstMovkIdx : Option Nat
  SecondMovkIdx : Option Nat

def Patches.patch (p : Patches) (Idx : Nat) (Clear : Bool) : Patches :=
  let OrrImm := updateImm p.OrrImm Idx Clear
  match p.FirstMovkIdx with
  | none => { p with OrrImm := OrrImm, FirstMovkIdx := some Idx }
  | some _ => { p with OrrImm := OrrImm, SecondMovkIdx := some Idx }

def patchChunk (UImm : BitVec 64) (StartIdx EndIdx : Nat) (Outside Inside : BitVec 64)
    (p : Patches) (Idx : Nat) : Option Patches := do
  let Chunk ← getChunk UImm Idx
  some (if (Idx < StartIdx ∨ EndIdx < Idx) ∧ Chunk ≠ Outside then
      p.patch Idx (Outside = 0)
    else if StartIdx < Idx ∧ Idx < EndIdx ∧ Chunk ≠ Inside then
      p.patch Idx (Inside ≠ 0xFFFF)
    else p)

def patchSequence (UImm : BitVec 64) (StartIdx EndIdx : Nat) (Outside Inside : BitVec 64) :
    Option (List ImmInsnModel) := do
  let p ← [0, 1, 2, 3].foldlM (patchChunk UImm StartIdx EndIdx Outside Inside)
    { OrrImm := UImm, FirstMovkIdx := none, SecondMovkIdx := none }
  let FirstMovkIdx ← p.FirstMovkIdx
  -- without an encoding the operand is zero
  let Encoding ← processLogicalImmediate p.OrrImm 64
  let orr : ImmInsnModel := { Opcode := .ORRXri, Op1 := 0, Op2 := Encoding.getD 0 }
  let first ← movk (← getChunk UImm FirstMovkIdx) (FirstMovkIdx * 16)
  match p.SecondMovkIdx with
  | none => some [orr, first]
  | some SecondMovkIdx =>
    let second ← movk (← getChunk UImm SecondMovkIdx) (SecondMovkIdx * 16)
    some [orr, first, second]

def trySequenceOfOnes (UImm : BitVec 64) : Option (Option (List ImmInsnModel)) := do
  match ← findEnds UImm with
  | (some StartIdx, some EndIdx) =>
    -- a sequence that wraps around is one of zeros
    if EndIdx < StartIdx then (patchSequence UImm EndIdx StartIdx 0xFFFF 0).map some
    else (patchSequence UImm StartIdx EndIdx 0 0xFFFF).map some
  | _ => some none

def GetRunOfOnesStartingAt (V : BitVec 64) (StartPosition : Nat) : Option (BitVec 64) := do
  let NumOnes := countr_one (← shr V StartPosition)
  let UnshiftedOnes ←
    if NumOnes = 64 then some (BitVec.allOnes 64) else (shl 1 NumOnes).map (· - 1)
  shl UnshiftedOnes StartPosition

def replicateTurn (V : BitVec 64) : Nat → BitVec 64 → BitVec 64
  | 0, Result => Result
  | i + 1, Result =>
    let Closure := Result ||| rotl Result (2 ^ (i + 1))
    if Closure ≠ Closure &&& V then Result else replicateTurn V i Closure

def MaximallyReplicateSubImmediate (V Subset : BitVec 64) : BitVec 64 := replicateTurn V 6 Subset

def maximalLogicalImmWithin (RemainingBits OriginalBits : BitVec 64) : Option (BitVec 64) := do
  let Position := countr_zero RemainingBits
  let FirstRun ← GetRunOfOnesStartingAt OriginalBits Position
  some (MaximallyReplicateSubImmediate OriginalBits FirstRun)

def decomposeIntoOrrOfLogicalImmediates (UImm : BitVec 64) :
    Option (Option (BitVec 64 × BitVec 64)) := do
  if UImm = 0 ∨ ~~~UImm = 0 then return none
  let InitialTrailingOnes := countr_one UImm
  let RotatedBits := rotr UImm InitialTrailingOnes
  let MaximalImm1 ← maximalLogicalImmWithin RotatedBits RotatedBits
  let RemainingBits := RotatedBits &&& ~~~MaximalImm1
  let MaximalImm2 ← maximalLogicalImmWithin RemainingBits RotatedBits
  if RemainingBits &&& ~~~MaximalImm2 ≠ 0 then return none
  return some (rotl MaximalImm1 InitialTrailingOnes, rotl MaximalImm2 InitialTrailingOnes)

def logicalPair (Imm1 Imm2 : BitVec 64) (first second : Opcode) :
    Option (Option (List ImmInsnModel)) := do
  let Encoding1 ← processLogicalImmediate Imm1 64
  let Encoding2 ← processLogicalImmediate Imm2 64
  match Encoding1, Encoding2 with
  | some Encoding1, some Encoding2 =>
    some (some [{ Opcode := first, Op1 := 0, Op2 := Encoding1 },
      { Opcode := second, Op1 := 1, Op2 := Encoding2 }])
  | _, _ => some none

def tryOrrOfLogicalImmediates (UImm : BitVec 64) : Option (Option (List ImmInsnModel)) := do
  match ← decomposeIntoOrrOfLogicalImmediates UImm with
  | none => some none
  | some (Imm1, Imm2) => logicalPair Imm1 Imm2 .ORRXri .ORRXri

def tryAndOfLogicalImmediates (UImm : BitVec 64) : Option (Option (List ImmInsnModel)) := do
  match ← decomposeIntoOrrOfLogicalImmediates (~~~UImm) with
  | none => some none
  | some (Imm1, Imm2) => logicalPair (~~~Imm1) (~~~Imm2) .ORRXri .ANDXri

def halveRepetition (Imm : BitVec 64) (BigSize : Nat) : Option (Turn Nat Nat) := do
  let BigSize := BigSize / 2
  let Mask := (← shl 1 BigSize) - 1
  let Shifted ← shr Imm BigSize
  if Imm &&& Mask ≠ Shifted &&& Mask then return .exit (BigSize * 2)
  if 2 < BigSize then return .next BigSize
  return .exit BigSize

def BigToSmallSizeTable : List (Option Nat) :=
  [none, none, some 0, some 1, some 2, some 2, none, some 3, some 3, some 3, none, none, none, none,
    none, some 4, some 4, some 4, none, none, none, none, none, none, none, none, none, none, none,
    none, none, some 5]

def RepeatedOnesTable : List (BitVec 64) :=
  [0xffffffffffffffff, 0x5555555555555555, 0x1111111111111111, 0x0101010101010101,
    0x0001000100010001, 0x0000000100000001, 0x0000000000000001]

def eorAttempts (Imm RunStarts SmallOnes : BitVec 64) :
    Nat → Nat → Option (Option (List ImmInsnModel))
  | 0, _ => some none
  | n + 1, Rotation => do
      let RunLength := countr_one (rotr Imm Rotation)
      let SmallImm := rotl ((← shl SmallOnes RunLength) - SmallOnes) Rotation
      let BigImm := Imm ^^^ SmallImm
      -- the other immediate is looked at only when this one has an encoding
      let BigEncoding ← processLogicalImmediate BigImm 64
      let SmallEncoding ←
        if BigEncoding.isSome then processLogicalImmediate SmallImm 64 else some none
      match BigEncoding, SmallEncoding with
      | some BigEncoding, some SmallEncoding =>
        some (some [{ Opcode := .ORRXri, Op1 := 0, Op2 := SmallEncoding },
          { Opcode := .EORXri, Op1 := 1, Op2 := BigEncoding }])
      | _, _ =>
        eorAttempts Imm RunStarts SmallOnes n
          (Rotation + countr_zero (rotr RunStarts Rotation &&& ~~~1))

def tryEorOfLogicalImmediates (Imm : BitVec 64) : Option (Option (List ImmInsnModel)) := do
  let BigSize ← loop (halveRepetition Imm) 64 64
  let BigMask ← shr (BitVec.allOnes 64) (64 - BigSize)
  let RunStarts := Imm &&& ~~~rotl Imm 1
  let RunsPerBigChunk := popcount (RunStarts &&& BigMask)
  match ← BigToSmallSizeTable[RunsPerBigChunk]? with
  | none => some none
  | some BigToSmallShift =>
    let SmallSize := BigSize >>> BigToSmallShift
    let SmallOnes ← RepeatedOnesTable[countr_zero (BitVec.ofNat 32 SmallSize)]?
    eorAttempts Imm RunStarts SmallOnes 3 (countr_zero RunStarts)

/-- The moves of the chunks from after `Shift` to `LastShift`, with the turns that are left. -/
def moveChunks (Imm : BitVec 64) (Opc : Opcode) (skip : BitVec 64) (LastShift : Nat) :
    Nat → Nat → Option (List ImmInsnModel)
  | 0, _ => none
  | n + 1, Shift =>
    if Shift < LastShift then do
      let Shift := Shift + 16
      let Imm16 := (← shr Imm Shift) &&& 0xFFFF
      if Imm16 = skip then moveChunks Imm Opc skip LastShift n Shift
      else
        let Op2 ← getShifterImm Shift
        let rest ← moveChunks Imm Opc skip LastShift n Shift
        some ({ Opcode := Opc, Op1 := Imm16, Op2 := Op2 } :: rest)
    else some []

def expandMOVImmSimple (Imm : BitVec 64) (BitSize OneChunks ZeroChunks : Nat) :
    Option (List ImmInsnModel) := do
  let isNeg : Bool := ZeroChunks < OneChunks
  let Imm := if isNeg then ~~~Imm else Imm
  let Imm := if BitSize = 32 then Imm &&& ((1 : BitVec 64) <<< 32 - 1) else Imm
  let FirstOpc : Opcode :=
    if BitSize = 32 then if isNeg then .MOVNWi else .MOVZWi
    else if isNeg then .MOVNXi else .MOVZXi
  let Shift := if Imm ≠ 0 then countr_zero Imm / 16 * 16 else 0
  let LastShift := if Imm ≠ 0 then (63 - countl_zero Imm) / 16 * 16 else 0
  let Imm16 := (← shr Imm Shift) &&& 0xFFFF
  let Op2 ← getShifterImm Shift
  let first : ImmInsnModel := { Opcode := FirstOpc, Op1 := Imm16, Op2 := Op2 }
  if Shift = LastShift then return [first]
  let Imm := if isNeg then ~~~Imm else Imm
  let Opc : Opcode := if BitSize = 32 then .MOVKWi else .MOVKXi
  let rest ← moveChunks Imm Opc (if isNeg then 0xFFFF else 0) LastShift 4 Shift
  return first :: rest

def countUniform (Imm : BitVec 64) (BitSize : Nat) : Option (Nat × Nat) :=
  (List.range (BitSize / 16)).foldlM (fun (s : Nat × Nat) Idx => do
    let Chunk := (← shr Imm (Idx * 16)) &&& 0xFFFF
    some (if Chunk = 0xFFFF then (s.1 + 1, s.2) else if Chunk = 0 then (s.1, s.2 + 1) else s))
    (0, 0)

def firstEncoding : List (BitVec 64) → Option (Option (BitVec 64))
  | [] => some none
  | Imm :: rest => do
      match ← processLogicalImmediate Imm 64 with
      | some Encoding => some (some Encoding)
      | none => firstEncoding rest

def orrMovk (UImm : BitVec 64) : List Nat → Option (Option (List ImmInsnModel))
  | [] => some none
  | Shift :: rest => do
      let ShiftedMask ← shl 0xFFFF Shift
      let ZeroChunk := UImm &&& ~~~ShiftedMask
      let OneChunk := UImm ||| ShiftedMask
      let RotatedImm := UImm <<< 32 ||| UImm >>> 32
      let ReplicateChunk := ZeroChunk ||| RotatedImm &&& ShiftedMask
      match ← firstEncoding [ZeroChunk, OneChunk, ReplicateChunk] with
      | some Encoding =>
        let Imm16 ← getChunk UImm (Shift / 16)
        let second ← movk Imm16 Shift
        some (some [{ Opcode := .ORRXri, Op1 := 0, Op2 := Encoding }, second])
      | none => orrMovk UImm rest

def expandMOVImm (traverse : List (BitVec 64 × Nat) → List (BitVec 64 × Nat)) (Imm : BitVec 64)
    (BitSize : Nat) : Option (List ImmInsnModel) := do
  let (OneChunks, ZeroChunks) ← countUniform Imm BitSize
  if BitSize / 16 - OneChunks ≤ 1 ∨ BitSize / 16 - ZeroChunks ≤ 1 then
    return ← expandMOVImmSimple Imm BitSize OneChunks ZeroChunks
  let UImm ← shr (← shl Imm (64 - BitSize)) (64 - BitSize)
  if let some Encoding ← processLogicalImmediate UImm BitSize then
    let Opc : Opcode := if BitSize = 32 then .ORRWri else .ORRXri
    return [{ Opcode := Opc, Op1 := 0, Op2 := Encoding }]
  if BitSize / 16 - 2 ≤ OneChunks ∨ BitSize / 16 - 2 ≤ ZeroChunks then
    return ← expandMOVImmSimple Imm BitSize OneChunks ZeroChunks
  guard (BitSize = 64)
  if let some Insn ← orrMovk UImm [0, 16, 32, 48] then return Insn
  if let some Insn ← tryOrrOfLogicalImmediates Imm then return Insn
  if let some Insn ← tryAndOfLogicalImmediates Imm then return Insn
  if let some Insn ← tryEorOfLogicalImmediates UImm then return Insn
  if OneChunks ≠ 0 ∨ ZeroChunks ≠ 0 then
    return ← expandMOVImmSimple Imm BitSize OneChunks ZeroChunks
  if let some Insn ← tryToreplicateChunks traverse UImm then return Insn
  if let some Insn ← trySequenceOfOnes UImm then return Insn
  expandMOVImmSimple Imm BitSize OneChunks ZeroChunks

end SmlnjLlvm.AArch64
