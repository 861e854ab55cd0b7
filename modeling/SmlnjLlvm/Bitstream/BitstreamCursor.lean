import SmlnjLlvm.Bitstream.SimpleCursor
import SmlnjLlvm.Library.Alignment

/-!
# The cursor over blocks, abbreviations and records

`BitstreamCursor` with the abbreviations of `BitCodes.h`. An accessor whose
assertion fails, an index out of range, and `llvm_unreachable` have no outcome.
-/

namespace SmlnjLlvm.Bitstream

open BitString

inductive Encoding where
  | Fixed
  | VBR
  | Array
  | Char6
  | Blob
  deriving DecidableEq, Repr

def Encoding.ofNat? : Nat → Option Encoding
  | 1 => some .Fixed
  | 2 => some .VBR
  | 3 => some .Array
  | 4 => some .Char6
  | 5 => some .Blob
  | _ => none

def Encoding.hasEncodingData : Encoding → Bool
  | .Fixed => true
  | .VBR => true
  | .Array => false
  | .Char6 => false
  | .Blob => false

inductive BitCodeAbbrevOp where
  | literal (Val : BitVec 64)
  | encoding (Enc : Encoding) (Val : BitVec 64)
  deriving DecidableEq, Repr

abbrev BitCodeAbbrev := List BitCodeAbbrevOp

def char6Table : List Char :=
  "abcdefghijklmnopqrstuvwxyzABCDEFGHIJKLMNOPQRSTUVWXYZ0123456789._".toList

namespace bitc

def BlockIDWidth : Nat := 8
def CodeLenWidth : Nat := 4
def BlockSizeWidth : Nat := 32
def END_BLOCK : Nat := 0
def ENTER_SUBBLOCK : Nat := 1
def DEFINE_ABBREV : Nat := 2
def UNABBREV_RECORD : Nat := 3
def FIRST_APPLICATION_ABBREV : Nat := 4
def BLOCKINFO_BLOCK_ID : Nat := 0
def BLOCKINFO_CODE_SETBID : Nat := 1
def BLOCKINFO_CODE_BLOCKNAME : Nat := 2
def BLOCKINFO_CODE_SETRECORDNAME : Nat := 3

end bitc

structure BlockInfo where
  BlockID : Nat := 0
  Abbrevs : List BitCodeAbbrev := []
  Name : Bytes := []
  RecordNames : List (Nat × Bytes) := []
  deriving DecidableEq, Repr

structure BitstreamBlockInfo where
  BlockInfoRecords : List BlockInfo := []
  deriving DecidableEq, Repr

namespace BitstreamBlockInfo

def findBlockInfo (info : BitstreamBlockInfo) (BlockID : Nat) : Option Nat :=
  if (info.BlockInfoRecords.getLast?.map BlockInfo.BlockID) = some BlockID then
    some (info.BlockInfoRecords.length - 1)
  else
    info.BlockInfoRecords.findIdx? fun BI => BI.BlockID == BlockID

def getBlockInfo (info : BitstreamBlockInfo) (BlockID : Nat) : Option BlockInfo :=
  (info.findBlockInfo BlockID).bind fun i => info.BlockInfoRecords[i]?

def getOrCreateBlockInfo (info : BitstreamBlockInfo) (BlockID : Nat) : Nat × BitstreamBlockInfo :=
  match info.findBlockInfo BlockID with
  | some i => (i, info)
  | none => (info.BlockInfoRecords.length, ⟨info.BlockInfoRecords ++ [{ BlockID := BlockID }]⟩)

def update (info : BitstreamBlockInfo) (i : Nat) (f : BlockInfo → BlockInfo) :
    BitstreamBlockInfo :=
  ⟨info.BlockInfoRecords.modify i f⟩

end BitstreamBlockInfo

structure Block where
  PrevCodeSize : Nat
  PrevAbbrevs : List BitCodeAbbrev
  deriving DecidableEq, Repr

/-- The top of `BlockScope` is its first element. -/
structure BitstreamCursor extends SimpleBitstreamCursor where
  CurCodeSize : Nat := 2
  CurAbbrevs : List BitCodeAbbrev := []
  BlockScope : List Block := []
  BlockInfo : Option BitstreamBlockInfo := none
  deriving DecidableEq, Repr

inductive BitstreamEntry where
  | Error
  | EndBlock
  | SubBlock (ID : BitVec 32)
  | Record (AbbrevID : BitVec 32)
  deriving DecidableEq, Repr

namespace BitstreamCursor

abbrev Run (α : Type) := Call BitstreamCursor StringError α

def MaxChunkSize : Nat := 32

def bits {α : Type} (m : SimpleBitstreamCursor.Run α) : Run α := fun c =>
  (m c.toSimpleBitstreamCursor).bind fun r => .ok (r.1, { c with toSimpleBitstreamCursor := r.2 })

def Read (NumBits : Nat) : Run (BitVec 64) := bits (SimpleBitstreamCursor.Read NumBits)

def ReadVBR (NumBits : Nat) : Run (BitVec 32) := bits (SimpleBitstreamCursor.ReadVBR NumBits)

def ReadVBR64 (NumBits : Nat) : Run (BitVec 64) := bits (SimpleBitstreamCursor.ReadVBR64 NumBits)

def SkipToFourByteBoundary : Run Unit := bits SimpleBitstreamCursor.SkipToFourByteBoundary

def JumpToBit (BitNo : Nat) : Run Unit := bits (SimpleBitstreamCursor.JumpToBit BitNo)

def skipToEnd : Run Unit := bits SimpleBitstreamCursor.skipToEnd

def error {α : Type} (Message : String) : Run α :=
  Call.fail ⟨.illegal_byte_sequence, Message, []⟩

def bitsLeft (c : BitstreamCursor) : Nat := size c.BitcodeBytes - c.GetCurrentBitNo

def DecodeChar6 (V : BitVec 32) : Run (BitVec 64) :=
  match char6Table[V.toNat]? with
  | some C => pure (.ofNat 64 C.toNat)
  | none => Call.stuck

def readAbbreviatedField : BitCodeAbbrevOp → Run (BitVec 64)
  | .literal _ => Call.stuck
  | .encoding .Array _ => Call.stuck
  | .encoding .Blob _ => Call.stuck
  | .encoding .Fixed Val => do
      Call.assert ((Val.setWidth 32).toNat ≤ MaxChunkSize)
      Read (Val.setWidth 32).toNat
  | .encoding .VBR Val => do
      Call.assert ((Val.setWidth 32).toNat ≤ MaxChunkSize)
      ReadVBR64 (Val.setWidth 32).toNat
  | .encoding .Char6 _ => do
      let Res ← Read 6
      DecodeChar6 (Res.setWidth 32)

def getAbbrev (AbbrevID : BitVec 32) : Run BitCodeAbbrev := do
  let AbbrevNo := AbbrevID - .ofNat 32 bitc.FIRST_APPLICATION_ABBREV
  let c ← get
  match c.CurAbbrevs[AbbrevNo.toNat]? with
  | some Abbv => pure Abbv
  | none => error "Invalid abbrev number"

def readCode : BitCodeAbbrevOp → Run (BitVec 32)
  | .literal Val => pure (Val.setWidth 32)
  | .encoding .Array _ => error "Abbreviation starts with an Array or a Blob"
  | .encoding .Blob _ => error "Abbreviation starts with an Array or a Blob"
  | CodeOp => do
      let MaybeCode ← readAbbreviatedField CodeOp
      pure (MaybeCode.setWidth 32)

def skipMany (read : Run (BitVec 64)) : Nat → Run Unit
  | 0 => pure ()
  | n + 1 => do
      let _ ← read
      skipMany read n

def skipArray (NumElts : BitVec 32) : BitCodeAbbrevOp → Run Unit
  | .literal _ => Call.stuck
  | .encoding .Array _ => error "Array element type can't be an Array or a Blob"
  | .encoding .Blob _ => error "Array element type can't be an Array or a Blob"
  | .encoding .Fixed Val => do
      Call.assert ((Val.setWidth 32).toNat ≤ MaxChunkSize)
      let c ← get
      JumpToBit (c.GetCurrentBitNo + NumElts.toNat * Val.toNat)
  | .encoding .VBR Val => do
      Call.assert ((Val.setWidth 32).toNat ≤ MaxChunkSize)
      skipMany (ReadVBR64 (Val.setWidth 32).toNat) NumElts.toNat
  | .encoding .Char6 _ => do
      let c ← get
      JumpToBit (c.GetCurrentBitNo + (NumElts * 6).toNat)

/-- How the loop over the operands is left: at their end, or by the `break` that follows
`skipToEnd`. -/
inductive LoopExit where
  | finished
  | movedToEnd
  deriving DecidableEq, Repr

def skipOperands : List BitCodeAbbrevOp → Run LoopExit
  | [] => pure .finished
  | .literal _ :: Ops => skipOperands Ops
  | .encoding .Array _ :: Ops => do
      let NumElts ← ReadVBR 6
      -- `i + 2 == e`
      Call.assert (Ops.length = 1)
      match Ops with
      | [] => Call.stuck
      | EltEnc :: Ops =>
        skipArray NumElts EltEnc
        skipOperands Ops
  | .encoding .Blob _ :: Ops => do
      let NumElts ← ReadVBR 6
      SkipToFourByteBoundary
      let c ← get
      let NewEnd := c.GetCurrentBitNo + Alignment.roundUp NumElts.toNat 4 * 8
      if ¬c.canSkipToPos (NewEnd / 8) then
        skipToEnd
        pure .movedToEnd
      else
        JumpToBit NewEnd
        skipOperands Ops
  | Op :: Ops => do
      let _ ← readAbbreviatedField Op
      skipOperands Ops

def skipRecordExit (AbbrevID : BitVec 32) : Run (BitVec 32 × LoopExit) := do
  if AbbrevID.toNat = bitc.UNABBREV_RECORD then
    let Code ← ReadVBR 6
    let NumElts ← ReadVBR 6
    skipMany (ReadVBR64 6) NumElts.toNat
    pure (Code, .finished)
  else
    let Abbv ← getAbbrev AbbrevID
    match Abbv with
    | [] => Call.stuck
    | CodeOp :: Ops =>
      let Code ← readCode CodeOp
      let exit ← skipOperands Ops
      pure (Code, exit)

def skipRecord (AbbrevID : BitVec 32) : Run (BitVec 32) := Prod.fst <$> skipRecordExit AbbrevID

/-- What a record is read into: the values, and the blob when the caller asks for one. -/
structure RecordData where
  Vals : List (BitVec 64) := []
  Blob : Option Bytes := none
  deriving DecidableEq, Repr

def RecordData.push (r : RecordData) (v : BitVec 64) : RecordData := { r with Vals := r.Vals ++ [v] }

def readMany (read : Run (BitVec 64)) : Nat → RecordData → Run RecordData
  | 0, r => pure r
  | n + 1, r => do
      let MaybeVal ← read
      readMany read n (r.push MaybeVal)

def readSize : Run (BitVec 32) := fun c =>
  match ReadVBR 6 c with
  | .ok r => .ok r
  | .error e =>
    .error ⟨.illegal_byte_sequence, "Failed to read size: " ++ e.format, e.args⟩
  | .stuck => .stuck

def readPlausibleSize : Run (BitVec 32) := do
  let NumElts ← readSize
  let c ← get
  if c.isSizePlausible NumElts.toNat then
    pure NumElts
  else
    error "Size is not plausible"

def readArray (NumElts : BitVec 32) (r : RecordData) : BitCodeAbbrevOp → Run RecordData
  | .literal _ => error "Array element type has to be an encoding of a type"
  | .encoding .Array _ => error "Array element type can't be an Array or a Blob"
  | .encoding .Blob _ => error "Array element type can't be an Array or a Blob"
  | .encoding .Fixed Val => readMany (Read (Val.setWidth 32).toNat) NumElts.toNat r
  | .encoding .VBR Val => readMany (ReadVBR64 (Val.setWidth 32).toNat) NumElts.toNat r
  | .encoding .Char6 _ => readMany (do
      let MaybeVal ← Read 6
      DecodeChar6 (MaybeVal.setWidth 32)) NumElts.toNat r

def blobAt (CurBitPos NumElts : Nat) : Run Bytes := fun c =>
  if CurBitPos % 8 = 0 then
    match slice c.BitcodeBytes (CurBitPos / 8) NumElts with
    | some bytes => .ok (bytes, c)
    | none => .stuck
  else .stuck

/-- The loop over the operands after the code; `wanted` says that the caller passes a place for
a blob. -/
def readOperands (wanted : Bool) : List BitCodeAbbrevOp → RecordData → Run RecordData
  | [], r => pure r
  | .literal Val :: Ops, r => readOperands wanted Ops (r.push Val)
  | .encoding .Array _ :: Ops, r => do
      let NumElts ← readPlausibleSize
      -- `i + 2 != e`
      if Ops.length ≠ 1 then
        error "Array op not second to last"
      else
        match Ops with
        | [] => Call.stuck
        | EltEnc :: Ops =>
          let r ← readArray NumElts r EltEnc
          readOperands wanted Ops r
  | .encoding .Blob _ :: Ops, r => do
      let NumElts ← ReadVBR 6
      SkipToFourByteBoundary
      let c ← get
      let CurBitPos := c.GetCurrentBitNo
      let NewEnd := CurBitPos + Alignment.roundUp NumElts.toNat 4 * 8
      if ¬c.canSkipToPos (NewEnd / 8) then
        error "Blob ends too soon"
      else
        JumpToBit NewEnd
        let bytes ← blobAt CurBitPos NumElts.toNat
        readOperands wanted Ops (if wanted then { r with Blob := some bytes }
          else { r with Vals := r.Vals ++ bytes.map fun b => .ofNat 64 b.toNat })
  | Op :: Ops, r => do
      let MaybeVal ← readAbbreviatedField Op
      readOperands wanted Ops (r.push MaybeVal)

def readRecord (AbbrevID : BitVec 32) (wanted : Bool) (r : RecordData) :
    Run (BitVec 32 × RecordData) := do
  if AbbrevID.toNat = bitc.UNABBREV_RECORD then
    let Code ← ReadVBR 6
    let NumElts ← readPlausibleSize
    let r ← readMany (ReadVBR64 6) NumElts.toNat r
    pure (Code, r)
  else
    let Abbv ← getAbbrev AbbrevID
    match Abbv with
    | [] => Call.stuck
    | CodeOp :: Ops =>
      let Code ← readCode CodeOp
      let r ← readOperands wanted Ops r
      pure (Code, r)

def readAbbrevOp : Run BitCodeAbbrevOp := do
  let IsLiteral ← Read 1
  if IsLiteral ≠ 0 then
    let MaybeOp ← ReadVBR64 8
    pure (.literal MaybeOp)
  else
    let MaybeEncoding ← Read 3
    match Encoding.ofNat? MaybeEncoding.toNat with
    | none => error "Invalid encoding"
    | some E =>
      if E.hasEncodingData then
        let Data ← ReadVBR64 5
        if (E = .Fixed ∨ E = .VBR) ∧ Data = 0 then
          -- a field of no bits is a literal zero
          pure (.literal 0)
        else if (E = .Fixed ∨ E = .VBR) ∧ MaxChunkSize < Data.toNat then
          error "Fixed or VBR abbrev record with size > MaxChunkData"
        else
          pure (.encoding E Data)
      else
        pure (.encoding E 0)

def readAbbrevOps : Nat → Run BitCodeAbbrev
  | 0 => pure []
  | n + 1 => do
      let Op ← readAbbrevOp
      let Ops ← readAbbrevOps n
      pure (Op :: Ops)

def ReadAbbrevRecord : Run Unit := do
  let NumOpInfo ← ReadVBR 5
  let Abbv ← readAbbrevOps NumOpInfo.toNat
  if Abbv.length = 0 then
    error "Abbrev record with no operands"
  else
    modify fun c => { c with CurAbbrevs := c.CurAbbrevs ++ [Abbv] }

def EnterSubBlock (BlockID : BitVec 32) : Run (BitVec 64) := do
  modify fun c => { c with
    BlockScope := ⟨c.CurCodeSize, c.CurAbbrevs⟩ :: c.BlockScope
    CurAbbrevs := ((c.BlockInfo.bind fun B => B.getBlockInfo BlockID.toNat).map
      Bitstream.BlockInfo.Abbrevs).getD [] }
  let MaybeVBR ← ReadVBR bitc.CodeLenWidth
  modify fun c => { c with CurCodeSize := MaybeVBR.toNat }
  if MaxChunkSize < MaybeVBR.toNat then
    Call.fail ⟨.illegal_byte_sequence,
      "can't read more than %zu at a time, trying to read %u", [MaxChunkSize, MaybeVBR.toNat]⟩
  else
    SkipToFourByteBoundary
    let NumWords ← Read bitc.BlockSizeWidth
    let c ← get
    if c.CurCodeSize = 0 then
      error "can't enter sub-block: current code size is 0"
    else if c.AtEndOfStream then
      error "can't enter sub block: already at end of stream"
    else
      pure NumWords

def SkipBlock : Run Unit := do
  let _ ← ReadVBR bitc.CodeLenWidth
  SkipToFourByteBoundary
  let MaybeNum ← Read bitc.BlockSizeWidth
  let c ← get
  let SkipTo := c.GetCurrentBitNo + MaybeNum.toNat * 4 * 8
  if c.AtEndOfStream then
    error "can't skip block: already at end of stream"
  else if ¬c.canSkipToPos (SkipTo / 8) then
    Call.fail ⟨.illegal_byte_sequence, "can't skip to bit %zu from %lu",
      [SkipTo, c.GetCurrentBitNo]⟩
  else
    JumpToBit SkipTo

def ReadBlockEnd : Run Bool := do
  let c ← get
  match c.BlockScope with
  | [] => pure true
  | _ :: _ =>
    SkipToFourByteBoundary
    modify fun c =>
      match c.BlockScope with
      | [] => c
      | B :: Bs => { c with
          CurCodeSize := B.PrevCodeSize, CurAbbrevs := B.PrevAbbrevs, BlockScope := Bs }
    pure false

structure AdvanceFlags where
  DontPopBlockAtEnd : Bool := false
  DontAutoprocessAbbrevs : Bool := false
  deriving DecidableEq, Repr

def advanceLoop (Flags : AdvanceFlags) : Nat → Run BitstreamEntry
  | 0 => Call.stuck
  | fuel + 1 => do
      let c ← get
      if c.AtEndOfStream then
        pure .Error
      else
        let MaybeCode ← Read c.CurCodeSize
        let Code : BitVec 32 := MaybeCode.setWidth 32
        if Code.toNat = bitc.END_BLOCK then
          if Flags.DontPopBlockAtEnd then
            pure .EndBlock
          else
            let failed ← ReadBlockEnd
            pure (if failed then .Error else .EndBlock)
        else if Code.toNat = bitc.ENTER_SUBBLOCK then
          let MaybeSubBlock ← ReadVBR bitc.BlockIDWidth
          pure (.SubBlock MaybeSubBlock)
        else if Code.toNat = bitc.DEFINE_ABBREV ∧ Flags.DontAutoprocessAbbrevs = false then
          ReadAbbrevRecord
          advanceLoop Flags fuel
        else
          pure (.Record Code)

def advance (Flags : AdvanceFlags) : Run BitstreamEntry := do
  let c ← get
  advanceLoop Flags (c.bitsLeft + 1)

def advanceSkippingLoop (Flags : AdvanceFlags) : Nat → Run BitstreamEntry
  | 0 => Call.stuck
  | fuel + 1 => do
      let Entry ← advance Flags
      match Entry with
      | .SubBlock _ =>
        SkipBlock
        advanceSkippingLoop Flags fuel
      | Entry => pure Entry

def advanceSkippingSubblocks (Flags : AdvanceFlags) : Run BitstreamEntry := do
  let c ← get
  advanceSkippingLoop Flags (c.bitsLeft + 1)

def nameOf (Vals : List (BitVec 64)) : Bytes := Vals.map fun v => UInt8.ofNat v.toNat

/-- What one record of the block does to the information read so far and to the current record of
it. No result means that the block is given up. -/
def blockInfoRecord (ReadBlockInfoNames : Bool) (NewBlockInfo : BitstreamBlockInfo)
    (CurBlockInfo : Option Nat) (Code : Nat) (Record : List (BitVec 64)) :
    Run (Option (BitstreamBlockInfo × Option Nat)) :=
  if Code = bitc.BLOCKINFO_CODE_SETBID then
    match Record with
    | [] => pure none
    | ID :: _ =>
      let (i, info) := NewBlockInfo.getOrCreateBlockInfo (ID.setWidth 32).toNat
      pure (some (info, some i))
  else if Code = bitc.BLOCKINFO_CODE_BLOCKNAME then
    match CurBlockInfo with
    | none => pure none
    | some i =>
      if ReadBlockInfoNames then
        pure (some (NewBlockInfo.update i fun BI => { BI with Name := nameOf Record }, some i))
      else
        pure (some (NewBlockInfo, some i))
  else if Code = bitc.BLOCKINFO_CODE_SETRECORDNAME then
    match CurBlockInfo with
    | none => pure none
    | some i =>
      if ReadBlockInfoNames then
        match Record with
        | [] => Call.stuck
        | ID :: Name =>
          pure (some (NewBlockInfo.update i fun BI => { BI with
            RecordNames := BI.RecordNames ++ [((ID.setWidth 32).toNat, nameOf Name)] }, some i))
      else
        pure (some (NewBlockInfo, some i))
  else
    pure (some (NewBlockInfo, CurBlockInfo))

def blockInfoLoop (ReadBlockInfoNames : Bool) :
    Nat → BitstreamBlockInfo → Option Nat → Run (Option BitstreamBlockInfo)
  | 0, _, _ => Call.stuck
  | fuel + 1, NewBlockInfo, CurBlockInfo => do
      let Entry ← advanceSkippingSubblocks { DontAutoprocessAbbrevs := true }
      match Entry with
      | .SubBlock _ => pure none
      | .Error => pure none
      | .EndBlock => pure (some NewBlockInfo)
      | .Record ID =>
        if ID.toNat = bitc.DEFINE_ABBREV then
          match CurBlockInfo with
          | none => pure none
          | some i =>
            ReadAbbrevRecord
            let c ← get
            match c.CurAbbrevs.getLast? with
            | none => Call.stuck
            | some Abbv =>
              set { c with CurAbbrevs := c.CurAbbrevs.dropLast }
              blockInfoLoop ReadBlockInfoNames fuel
                (NewBlockInfo.update i fun BI => { BI with Abbrevs := BI.Abbrevs ++ [Abbv] })
                (some i)
        else
          let (Code, Record) ← readRecord ID false {}
          let next ← blockInfoRecord ReadBlockInfoNames NewBlockInfo CurBlockInfo Code.toNat
            Record.Vals
          match next with
          | none => pure none
          | some (NewBlockInfo, CurBlockInfo) =>
            blockInfoLoop ReadBlockInfoNames fuel NewBlockInfo CurBlockInfo

def ReadBlockInfoBlock (ReadBlockInfoNames : Bool) : Run (Option BitstreamBlockInfo) := do
  let _ ← EnterSubBlock (.ofNat 32 bitc.BLOCKINFO_BLOCK_ID)
  let c ← get
  blockInfoLoop ReadBlockInfoNames (c.bitsLeft + 1) {} none

def setBlockInfo (BI : BitstreamBlockInfo) : Run Unit :=
  modify fun c => { c with BlockInfo := some BI }

end BitstreamCursor

end SmlnjLlvm.Bitstream
