import SmlnjLlvm.Library.Loop
import SmlnjLlvm.Support.DataExtractor

/-!
# GSYM line tables

`LineTable::encode`, the parser with its callback, `decode` and `lookup`. Line
deltas are differences of 32-bit lines, so they are integers here and words
only where they meet an address delta.
-/

namespace SmlnjLlvm.Gsym

open LEB128 Loop

structure LineEntry where
  Addr : BitVec 64
  File : BitVec 32
  Line : BitVec 32
  deriving DecidableEq, Repr

def LineEntry.empty : LineEntry := ⟨0, 0, 0⟩

def LineEntry.isValid (e : LineEntry) : Bool := e.File ≠ 0

/-- The errors, with the numbers that their texts print. -/
inductive LineTableError
  | atOffset (Offset : Nat) (text : String)
  | invalidTable
  | belowStart (Addr BaseAddr : BitVec 64)
  | notAscending
  | notInTable (Addr : BitVec 64)
  deriving DecidableEq, Repr

def EndSequence : UInt8 := 0x00
def SetFile : UInt8 := 0x01
def AdvancePC : UInt8 := 0x02
def AdvanceLine : UInt8 := 0x03
def FirstSpecial : UInt8 := 0x04

structure DeltaInfo where
  Delta : Int
  Count : BitVec 32
  deriving DecidableEq, Repr

def countDelta (LineDelta : Int) : List DeltaInfo → List DeltaInfo
  | [] => [⟨LineDelta, 1⟩]
  | info :: rest =>
    if info.Delta < LineDelta then info :: countDelta LineDelta rest
    else if info.Delta = LineDelta then { info with Count := info.Count + 1 } :: rest
    else ⟨LineDelta, 1⟩ :: info :: rest

/-- The variables of the loop that collects the deltas. -/
structure DeltaScan where
  PrevLine : Int
  DeltaInfos : List DeltaInfo
  MinLineDelta : Int
  MaxLineDelta : Int

def DeltaScan.turn (s : DeltaScan) (line_entry : LineEntry) : DeltaScan :=
  let LineDelta := (line_entry.Line.toNat : Int) - s.PrevLine
  { PrevLine := line_entry.Line.toNat
    DeltaInfos := countDelta LineDelta s.DeltaInfos
    MinLineDelta := if LineDelta < s.MinLineDelta then LineDelta else s.MinLineDelta
    MaxLineDelta := if s.MaxLineDelta < LineDelta then LineDelta else s.MaxLineDelta }

def DeltaScan.run : List LineEntry → DeltaScan
  | [] => ⟨1, [], 2 ^ 63 - 1, -2 ^ 63⟩
  | first :: rest => rest.foldl DeltaScan.turn ⟨first.Line.toNat, [], 2 ^ 63 - 1, -2 ^ 63⟩

def MaxLineRange : Int := 14

/-- The inner loop: where the deltas leave the range of the first one, and how many there are. -/
def countRange (FirstDelta : Int) : List DeltaInfo → Nat → BitVec 32 → Nat × BitVec 32
  | [], J, CurrCount => (J, CurrCount)
  | info :: rest, J, CurrCount =>
    if MaxLineRange < info.Delta - FirstDelta then (J, CurrCount)
    else countRange FirstDelta rest (J + 1) (CurrCount + info.Count)

structure BestRange where
  BestIndex : Nat
  BestEndIndex : Nat
  BestCount : BitVec 32

def bestRange : List DeltaInfo → Nat → BestRange → BestRange
  | [], _, best => best
  | info :: rest, I, best =>
    let (J, CurrCount) := countRange info.Delta (info :: rest) I 0
    bestRange rest (I + 1)
      (if best.BestCount < CurrCount then ⟨I, J - 1, CurrCount⟩ else best)

/--
The least and the greatest delta, or the best range when they are too far apart.
The loop over 2^32 deltas or more does not end, since its counter has 32 bits.
-/
def pickRange (Lines : List LineEntry) : Option (Int × Int) :=
  let s := DeltaScan.run Lines
  if Lines.length = 1 then some (0, 0)
  else if MaxLineRange < s.MaxLineDelta - s.MinLineDelta then
    if s.DeltaInfos.length < 2 ^ 32 then do
      let best := bestRange s.DeltaInfos 0 ⟨0, 0, 0⟩
      let first ← s.DeltaInfos[best.BestIndex]?
      let last ← s.DeltaInfos[best.BestEndIndex]?
      some (first.Delta, last.Delta)
    else none
  else some (s.MinLineDelta, s.MaxLineDelta)

/-- `MinLineDelta` and `MaxLineDelta` for the entries; the assertion is the last comparison. -/
def lineDeltaRange (Lines : List LineEntry) : Option (Int × Int) := do
  let (MinLineDelta, MaxLineDelta) ← pickRange Lines
  let MinLineDelta :=
    if MinLineDelta = MaxLineDelta ∧ 0 < MinLineDelta ∧ MinLineDelta < MaxLineRange then 0
    else MinLineDelta
  if MinLineDelta ≤ MaxLineDelta then some (MinLineDelta, MaxLineDelta) else none

def encodeSpecial (MinLineDelta MaxLineDelta LineDelta : Int) (AddrDelta : BitVec 64) :
    Option UInt8 :=
  if LineDelta < MinLineDelta then none
  else if MaxLineDelta < LineDelta then none
  else
    let LineRange := BitVec.ofInt 64 (MaxLineDelta - MinLineDelta + 1)
    let AdjustedOp := BitVec.ofInt 64 (LineDelta - MinLineDelta) + AddrDelta * LineRange
    let Op := AdjustedOp + 4
    if Op.toInt < 0 then none
    else if 255 < Op.toInt then none
    else some (UInt8.ofBitVec (Op.setWidth 8))

def lineDelta (Prev Curr : LineEntry) : Int :=
  if Prev.Line < Curr.Line then ((Curr.Line - Prev.Line).toNat : Int)
  else if Curr.Line < Prev.Line then (-(Prev.Line - Curr.Line)).toInt
  else 0

def encodeFile (Prev Curr : LineEntry) : List UInt8 :=
  if Curr.File ≠ Prev.File then SetFile :: uleb128 (Curr.File.setWidth 64) else []

def encodeLine (LineDelta : Int) : List UInt8 :=
  if LineDelta ≠ 0 then AdvanceLine :: sleb128 (BitVec.ofInt 64 LineDelta) else []

def encodeEntry (MinLineDelta MaxLineDelta : Int) (Prev Curr : LineEntry) : List UInt8 :=
  let AddrDelta := Curr.Addr - Prev.Addr
  let LineDelta := lineDelta Prev Curr
  encodeFile Prev Curr ++
  match encodeSpecial MinLineDelta MaxLineDelta LineDelta AddrDelta with
  | some SpecialOp => [SpecialOp]
  | none => encodeLine LineDelta ++ AdvancePC :: uleb128 AddrDelta

def encodeEntries (MinLineDelta MaxLineDelta : Int) (BaseAddr : BitVec 64) :
    LineEntry → List LineEntry → Except LineTableError (List UInt8)
  | _, [] => .ok []
  | Prev, Curr :: rest =>
    if Curr.Addr < BaseAddr then .error (.belowStart Curr.Addr BaseAddr)
    else if Curr.Addr < Prev.Addr then .error .notAscending
    else do
      let bytes ← encodeEntries MinLineDelta MaxLineDelta BaseAddr Curr rest
      .ok (encodeEntry MinLineDelta MaxLineDelta Prev Curr ++ bytes)

def encodeHeader (MinLineDelta MaxLineDelta : Int) (FirstLine : BitVec 32) : List UInt8 :=
  sleb128 (BitVec.ofInt 64 MinLineDelta) ++ sleb128 (BitVec.ofInt 64 MaxLineDelta) ++
    uleb128 (FirstLine.setWidth 64)

def encode (Lines : List LineEntry) (BaseAddr : BitVec 64) :
    Option (Except LineTableError (List UInt8)) :=
  match Lines with
  | [] => some (.error .invalidTable)
  | first :: _ => do
      let (MinLineDelta, MaxLineDelta) ← lineDeltaRange Lines
      let Prev : LineEntry := ⟨BaseAddr, 1, first.Line⟩
      some ((encodeEntries MinLineDelta MaxLineDelta BaseAddr Prev Lines).map fun bytes =>
        encodeHeader MinLineDelta MaxLineDelta Prev.Line ++ bytes ++ [EndSequence])

section Parse

variable {σ : Type} (d : DataExtractor)

/-- The offset, the row and what the callback has collected. -/
structure ParseState (σ : Type) where
  Offset : Nat
  Row : LineEntry
  acc : σ

abbrev ParseResult (σ : Type) := Except LineTableError Unit × σ

def emitRow (Callback : LineEntry → σ → σ × Bool) (s : ParseState σ) :
    Turn (ParseState σ) (ParseResult σ) :=
  let (acc, goOn) := Callback s.Row s.acc
  if goOn then .next { s with acc := acc } else .exit (.ok (), acc)

def parseTurn (MinDelta LineRange : BitVec 64) (Callback : LineEntry → σ → σ × Bool)
    (s : ParseState σ) : Option (Turn (ParseState σ) (ParseResult σ)) :=
  if d.Data.length ≤ s.Offset then
    some (.exit (.error (.atOffset s.Offset "EOF found before EndSequence"), s.acc))
  else
    let (Op, C) := d.getU8 (.start s.Offset)
    match Op.toNat with
    | 0 => some (.exit (.ok (), s.acc))
    | 1 =>
      if d.Data.length ≤ C.Offset then
        some (.exit (.error (.atOffset C.Offset "EOF found before SetFile value"), s.acc))
      else do
        let (File, C) ← d.getULEB128 (.start C.Offset)
        some (.next { s with Offset := C.Offset, Row := { s.Row with File := File.setWidth 32 } })
    | 2 =>
      if d.Data.length ≤ C.Offset then
        some (.exit (.error (.atOffset C.Offset "EOF found before AdvancePC value"), s.acc))
      else do
        let (AddrDelta, C) ← d.getULEB128 (.start C.Offset)
        some (emitRow Callback
          { s with Offset := C.Offset, Row := { s.Row with Addr := s.Row.Addr + AddrDelta } })
    | 3 =>
      if d.Data.length ≤ C.Offset then
        some (.exit (.error (.atOffset C.Offset "EOF found before AdvanceLine value"), s.acc))
      else do
        let (LineDelta, C) ← d.getSLEB128 (.start C.Offset)
        let Line := s.Row.Line + LineDelta.setWidth 32
        some (.next { s with Offset := C.Offset, Row := { s.Row with Line := Line } })
    | _ =>
      -- A byte that contains both address and line increment.
      let AdjustedOp : BitVec 64 := (Op - FirstSpecial).toBitVec.setWidth 64
      if LineRange = 0 then none
      else
        let LineDelta := MinDelta + AdjustedOp.srem LineRange
        let AddrDelta := AdjustedOp.sdiv LineRange
        some (emitRow Callback
          { s with
            Offset := C.Offset
            Row :=
              { s.Row with
                Line := s.Row.Line + LineDelta.setWidth 32
                Addr := s.Row.Addr + AddrDelta } })

/-- Every turn of the loop but the last reads an opcode, so the data bound their number. -/
def parse (BaseAddr : BitVec 64) (Callback : LineEntry → σ → σ × Bool) (acc : σ) :
    Option (ParseResult σ) :=
  if d.Data.length ≤ 0 then some (.error (.atOffset 0 "missing LineTable MinDelta"), acc)
  else do
    let (MinDelta, C) ← d.getSLEB128 (.start 0)
    if d.Data.length ≤ C.Offset then
      some (.error (.atOffset C.Offset "missing LineTable MaxDelta"), acc)
    else
      let (MaxDelta, C) ← d.getSLEB128 (.start C.Offset)
      let LineRange := MaxDelta - MinDelta + 1
      if d.Data.length ≤ C.Offset then
        some (.error (.atOffset C.Offset "missing LineTable FirstLine"), acc)
      else
        let (FirstLine, C) ← d.getULEB128 (.start C.Offset)
        let Row : LineEntry := ⟨BaseAddr, 1, FirstLine.setWidth 32⟩
        loop (parseTurn d MinDelta LineRange Callback) (d.Data.length + 1) ⟨C.Offset, Row, acc⟩

def decode (BaseAddr : BitVec 64) : Option (Except LineTableError (List LineEntry)) :=
  (parse d BaseAddr (fun Row Lines => (Lines ++ [Row], true)) []).map
    fun (Err, Lines) => Err.map fun _ => Lines

def lookupCallback (Addr : BitVec 64) (Row Result : LineEntry) : LineEntry × Bool :=
  if Addr < Row.Addr then (Result, false) else (Row, true)

def lookup (BaseAddr Addr : BitVec 64) : Option (Except LineTableError LineEntry) :=
  (parse d BaseAddr (lookupCallback Addr) .empty).map fun (Err, Result) =>
    match Err with
    | .error e => .error e
    | .ok () => if Result.isValid then .ok Result else .error (.notInTable Addr)

end Parse

end SmlnjLlvm.Gsym
