import SmlnjLlvm.DebugInfo.GsymRanges

/-!
# GSYM inline information

`InlineInfo`: encoding, decoding, skipping and the two lookups, one in the tree
and one in its bytes. The readers go down the tree and along the children; the
fuel of a reader bounds both.
-/

namespace SmlnjLlvm.Gsym

open LEB128 Loop

structure InlineInfo where
  Name : BitVec 32
  CallFile : BitVec 32
  CallLine : BitVec 32
  Ranges : AddressRanges
  Children : List InlineInfo

/-- The errors, with what their texts print. -/
inductive InlineInfoError
  | atOffset (Offset : Nat) (text : String)
  | argument (text : String)
  | noFile (Index : BitVec 32)
  deriving DecidableEq, Repr

namespace InlineInfo

def isValid (II : InlineInfo) : Bool := !II.Ranges.Ranges.isEmpty

mutual

def getInlineStackHelper (Addr : Nat) :
    InlineInfo → List InlineInfo → Bool × List InlineInfo
  | ⟨Name, CallFile, CallLine, Ranges, Children⟩, InlineStack =>
    if Ranges.containsAddr Addr then
      let InlineStack :=
        if Name ≠ 0 then ⟨Name, CallFile, CallLine, Ranges, Children⟩ :: InlineStack
        else InlineStack
      let InlineStack := inlineStackOfChildren Addr Children InlineStack
      (!InlineStack.isEmpty, InlineStack)
    else (false, InlineStack)

def inlineStackOfChildren (Addr : Nat) :
    List InlineInfo → List InlineInfo → List InlineInfo
  | [], InlineStack => InlineStack
  | Child :: rest, InlineStack =>
    let (found, InlineStack) := getInlineStackHelper Addr Child InlineStack
    if found then InlineStack else inlineStackOfChildren Addr rest InlineStack

end

def getInlineStack (II : InlineInfo) (Addr : Nat) : Option (List InlineInfo) :=
  let (found, Result) := getInlineStackHelper Addr II []
  if found then some Result else none

def writeU32 (IsLittleEndian : Bool) (U : BitVec 32) : List UInt8 :=
  let bytes := DataExtractor.bytesOf U.toNat 4
  if IsLittleEndian then bytes else bytes.reverse

def encodeFields (IsLittleEndian HasChildren : Bool) (Name CallFile CallLine : BitVec 32) :
    List UInt8 :=
  (if HasChildren then 1 else 0) :: (writeU32 IsLittleEndian Name ++
    (uleb128 (CallFile.setWidth 64) ++ uleb128 (CallLine.setWidth 64)))

mutual

/-- `encode`; no result when the assertion of `encodeRange` fails. What is written before an error
is not kept. -/
def encode (IsLittleEndian : Bool) :
    InlineInfo → Nat → Option (Except InlineInfoError (List UInt8))
  | ⟨Name, CallFile, CallLine, Ranges, Children⟩, BaseAddr =>
    match Ranges.Ranges with
    | [] => some (.error (.argument "attempted to encode invalid InlineInfo object"))
    | first :: _ => do
        let ranges ← encodeRanges Ranges BaseAddr
        let fields := encodeFields IsLittleEndian (!Children.isEmpty) Name CallFile CallLine
        if Children.isEmpty then some (.ok (ranges ++ fields))
        else
          let children ← encodeChildren IsLittleEndian Ranges first.Start Children
          some (children.map fun bytes => ranges ++ (fields ++ bytes))

def encodeChildren (IsLittleEndian : Bool) (Ranges : AddressRanges) (ChildBaseAddr : Nat) :
    List InlineInfo → Option (Except InlineInfoError (List UInt8))
  | [] => some (.ok (uleb128 0))
  | Child :: rest =>
    if Child.Ranges.Ranges.all Ranges.contains then do
      match ← encode IsLittleEndian Child ChildBaseAddr with
      | .error Err => some (.error Err)
      | .ok bytes => do
          let more ← encodeChildren IsLittleEndian Ranges ChildBaseAddr rest
          some (more.map fun more => bytes ++ more)
    else some (.error (.argument "child range not contained in parent"))

end

section Read

variable (d : DataExtractor)

structure Fields where
  HasChildren : Bool
  Name : BitVec 32
  CallFile : BitVec 32
  CallLine : BitVec 32

def readFields (Offset : Nat) : Option (Fields × Nat) := do
  let (HasChildren, C) := d.getU8 (.start Offset)
  let (Name, C) := d.getU32 (.start C.Offset)
  let (CallFile, C) ← d.getULEB128 (.start C.Offset)
  let (CallLine, C) ← d.getULEB128 (.start C.Offset)
  some (⟨HasChildren ≠ 0, Name, CallFile.setWidth 32, CallLine.setWidth 32⟩, C.Offset)

def decodeFields (Offset : Nat) : Option (Except InlineInfoError (Fields × Nat)) :=
  if d.Data.length ≤ Offset then
    some (.error (.atOffset Offset "missing InlineInfo uint8_t indicating children"))
  else
    let (HasChildren, C) := d.getU8 (.start Offset)
    if d.Data.length < C.Offset + 4 then
      some (.error (.atOffset C.Offset "missing InlineInfo uint32_t for name"))
    else
      let (Name, C) := d.getU32 (.start C.Offset)
      if d.Data.length ≤ C.Offset then
        some (.error (.atOffset C.Offset "missing ULEB128 for InlineInfo call file"))
      else do
        let (CallFile, C) ← d.getULEB128 (.start C.Offset)
        if d.Data.length ≤ C.Offset then
          some (.error (.atOffset C.Offset "missing ULEB128 for InlineInfo call line"))
        else do
          let (CallLine, C) ← d.getULEB128 (.start C.Offset)
          let fields :=
            ⟨HasChildren ≠ 0, Name, CallFile.setWidth 32, CallLine.setWidth 32⟩
          some (.ok (fields, C.Offset))

/-- The children so far, and the offset of the next one. -/
structure Siblings where
  Children : List InlineInfo
  Offset : Nat

def childTurn (decodeChild : Nat → Option (Except InlineInfoError (InlineInfo × Nat)))
    (s : Siblings) : Option (Turn Siblings (Except InlineInfoError Siblings)) := do
  match ← decodeChild s.Offset with
  | .error Err => some (.exit (.error Err))
  | .ok (Child, Offset) =>
    if Child.isValid then some (.next ⟨s.Children ++ [Child], Offset⟩)
    else some (.exit (.ok ⟨s.Children, Offset⟩))

def decodeAt : Nat → Nat → Nat → Option (Except InlineInfoError (InlineInfo × Nat))
  | 0, _, _ => none
  | turns + 1, BaseAddr, Offset =>
    if d.Data.length ≤ Offset then
      some (.error (.atOffset Offset "missing InlineInfo address ranges data"))
    else do
      let (Ranges, Offset) ← decodeRanges d BaseAddr Offset
      match Ranges.Ranges with
      | [] => some (.ok (⟨0, 0, 0, Ranges, []⟩, Offset))
      | first :: _ => do
          match ← decodeFields d Offset with
          | .error Err => some (.error Err)
          | .ok (fields, Offset) =>
            if fields.HasChildren then do
              let s ← loop (childTurn (decodeAt turns first.Start)) turns ⟨[], Offset⟩
              some (s.map fun s =>
                (⟨fields.Name, fields.CallFile, fields.CallLine, Ranges, s.Children⟩, s.Offset))
            else
              some (.ok
                (⟨fields.Name, fields.CallFile, fields.CallLine, Ranges, []⟩, Offset))

/-- `InlineInfo::decode`. Every call and every turn but the last of a chain reads bytes, so the
data bound their number. -/
def decode (BaseAddr : Nat) : Option (Except InlineInfoError InlineInfo) :=
  (decodeAt d (d.Data.length + 1) BaseAddr 0).map fun r => r.map Prod.fst

def skipTurn (skipChild : Nat → Option (Bool × Nat)) (Offset : Nat) : Option (Turn Nat Nat) := do
  let (skipped, Offset) ← skipChild Offset
  some (if skipped then .next Offset else .exit Offset)

def skip : Nat → Nat → Bool → Option (Bool × Nat)
  | 0, _, _ => none
  | turns + 1, Offset, SkippedRanges => do
      let (there, Offset) ←
        if SkippedRanges then some (true, Offset)
        else do
          let (NumRanges, Offset) ← skipRanges d Offset
          some (decide (NumRanges ≠ 0), Offset)
      if there then do
        let (fields, Offset) ← readFields d Offset
        if fields.HasChildren then do
          let Offset ← loop (skipTurn fun Offset => skip turns Offset false) turns Offset
          some (true, Offset)
        else some (true, Offset)
      else some (false, Offset)

end Read

structure FileEntry where
  Dir : BitVec 32
  Base : BitVec 32
  deriving DecidableEq, Repr

/-- The file table and the string table. -/
structure GsymReader where
  Files : List FileEntry
  StrTab : List UInt8

namespace GsymReader

def getFile (GR : GsymReader) (Index : BitVec 32) : Option FileEntry := GR.Files[Index.toNat]?

def getString (GR : GsymReader) (Offset : BitVec 32) : List UInt8 :=
  (GR.StrTab.drop Offset.toNat).takeWhile (· ≠ 0)

end GsymReader

structure SourceLocation where
  Name : List UInt8
  Dir : List UInt8
  Base : List UInt8
  Line : BitVec 32
  Offset : BitVec 32
  deriving DecidableEq, Repr

variable (GR : GsymReader) (d : DataExtractor) (Addr : Nat)

def SourceLocation.enter (back : SourceLocation) (Name : BitVec 32) (Start : Nat) :
    SourceLocation :=
  { back with Name := GR.getString Name, Offset := BitVec.ofNat 32 (Addr - Start) }

def SourceLocation.caller (back : SourceLocation) (CallFile : FileEntry) (CallLine : BitVec 32) :
    SourceLocation where
  Name := back.Name
  Offset := back.Offset
  Dir := GR.getString CallFile.Dir
  Base := GR.getString CallFile.Base
  Line := CallLine

def pushCaller (fields : Fields) (Start : Nat) (CallFile : FileEntry)
    (SrcLocs : List SourceLocation) : Option (List SourceLocation) :=
  if CallFile.Dir ≠ 0 ∨ CallFile.Base ≠ 0 then do
    let back ← SrcLocs.getLast?
    some (SrcLocs.dropLast ++
      [back.enter GR Addr fields.Name Start, back.caller GR CallFile fields.CallLine])
  else some SrcLocs

structure LookupState where
  Offset : Nat
  SrcLocs : List SourceLocation
  Err : Option InlineInfoError

def lookupTurn (lookupChild : LookupState → Option (Bool × LookupState)) (s : LookupState) :
    Option (Turn LookupState LookupState) := do
  let (Done, s) ← lookupChild s
  some (if Done then .exit s else .next s)

def lookupAt : Nat → Nat → LookupState → Option (Bool × LookupState)
  | 0, _, _ => none
  | turns + 1, BaseAddr, s => do
      let (Ranges, Offset) ← decodeRanges d BaseAddr s.Offset
      match Ranges.Ranges with
      | [] => some (true, { s with Offset := Offset })
      | first :: _ =>
        if Ranges.containsAddr Addr then do
          let (fields, Offset) ← readFields d Offset
          let s := { s with Offset := Offset }
          let s ←
            if fields.HasChildren then
              loop (lookupTurn (lookupAt turns first.Start)) turns s
            else some s
          match GR.getFile fields.CallFile with
          | none => some (false, { s with Err := some (.noFile fields.CallFile) })
          | some CallFile => do
              let SrcLocs ← pushCaller GR Addr fields first.Start CallFile s.SrcLocs
              some (true, { s with SrcLocs := SrcLocs })
        else do
          let (_, Offset) ← skip d turns Offset true
          some (false, { s with Offset := Offset })

def lookup (BaseAddr : Nat) (SrcLocs : List SourceLocation) :
    Option (Option InlineInfoError × List SourceLocation) := do
  let (_, s) ← lookupAt GR d Addr (d.Data.length + 1) BaseAddr ⟨0, SrcLocs, none⟩
  some (s.Err, s.SrcLocs)

end InlineInfo

end SmlnjLlvm.Gsym
