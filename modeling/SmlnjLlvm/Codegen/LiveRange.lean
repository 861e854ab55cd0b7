import Mathlib.Data.List.DropRight
import Mathlib.Logic.Function.Basic
import SmlnjLlvm.Library.Loop
import SmlnjLlvm.Library.RangeLists

/-!
# Live ranges

The segments of a live range and its values, with the queries on them and the
merge of two values. A slot index is valid and has its place in the order of the
indexes. An iterator is the segments from it on, and those before it where it
steps back; a pointer to a value is an address in the memory.
-/

namespace SmlnjLlvm.LiveInterval

open Loop RangeLists

variable {α : Type}

/-- A value is unused when it has no index. -/
structure VNInfo (α : Type) where
  id : Nat
  Def : Option α
  deriving DecidableEq, Repr

def VNInfo.isUnused (VNI : VNInfo α) : Bool := VNI.Def.isNone

abbrev ValNo := Nat

abbrev Memory (α : Type) := ValNo → VNInfo α

/-- The start is inclusive, the end exclusive. -/
structure Segment (α : Type) where
  Start : α
  End : α
  valno : ValNo
  deriving DecidableEq, Repr

/-- `LiveRange`, after its segment set was flushed. -/
structure LiveRange (α : Type) where
  segments : List (Segment α)
  valnos : List ValNo
  deriving DecidableEq, Repr

variable [LinearOrder α]

def Segment.contains (S : Segment α) (I : α) : Bool := S.Start ≤ I && I < S.End

def Follows (S T : Segment α) : Prop := S.End ≤ T.Start ∧ (S.End = T.Start → S.valno ≠ T.valno)

/-- The assertions of `verify`. -/
structure Verified (mem : Memory α) (LR : LiveRange α) : Prop where
  lt : ∀ S ∈ LR.segments, S.Start < S.End
  numbered : ∀ S ∈ LR.segments, LR.valnos[(mem S.valno).id]? = some S.valno
  follows : LR.segments.IsChain Follows

def find (segments : List (Segment α)) (Pos : α) : List (Segment α) :=
  segments.dropWhile fun X => X.End ≤ Pos

def advanceTo (segments I : List (Segment α)) (Pos : α) : Option (List (Segment α)) :=
  match I, segments.getLast? with
  | [], _ => none
  | _, none => none
  | _, some back =>
    if back.End ≤ Pos then some []
    else
      match I.dropWhile fun S => S.End ≤ Pos with
      | [] => none
      | J => some J

def stepBack (before after : List (Segment α)) : List (Segment α) :=
  before.getLast?.toList ++ after

def overlapsTurn : List (Segment α) × List (Segment α) →
    Option (Turn (List (Segment α) × List (Segment α)) Bool)
  | ([], _) => some (.exit false)
  | (_ :: _, []) => none
  | (S :: i, T :: j) =>
    if T.Start < S.Start then
      if S.Start < T.End then some (.exit true) else some (.next (j, S :: i))
    else if T.Start < S.End then some (.exit true)
    else some (.next (i, T :: j))

def overlapsLoop (i j : List (Segment α)) : Option Bool :=
  if j = [] then some false else loop overlapsTurn (i.length + j.length + 1) (i, j)

def overlapsFrom (A other : LiveRange α) (StartPos : Nat) : Option Bool :=
  match A.segments, other.segments.drop StartPos with
  | [], _ => none
  | _, [] => none
  | i :: _, j :: later =>
    -- The assertion on the start position hint.
    if ¬ (j.Start ≤ i.Start ∨ StartPos = 0) then none
    else if i.Start < j.Start then
      overlapsLoop
        (stepBack (A.segments.takeWhile fun S => S.Start ≤ j.Start)
          (A.segments.dropWhile fun S => S.Start ≤ j.Start))
        (j :: later)
    else if j.Start < i.Start then
      if later.head?.any fun next => next.Start ≤ i.Start then
        overlapsLoop A.segments
          (stepBack
            (other.segments.take StartPos ++
              (j :: later).takeWhile fun S => S.Start ≤ i.Start)
            ((j :: later).dropWhile fun S => S.Start ≤ i.Start))
      else overlapsLoop A.segments (j :: later)
    else some true

def overlaps (A : LiveRange α) (Start End : α) : Option Bool :=
  if Start < End then
    some ((A.segments.takeWhile fun S => S.Start < End).getLast?.any fun I => Start < I.End)
  else none

/-- Check adjacent live segments: an iterator that gets behind the end, if there is one. -/
def coverEnd (End : α) : List (Segment α) → Option (List (Segment α))
  | [] => none
  | Last :: rest =>
    if Last.End < End then
      match rest with
      | [] => none
      | I :: _ => if Last.End ≠ I.Start then none else coverEnd End rest
    else some (Last :: rest)

def coversFrom (segments : List (Segment α)) :
    List (Segment α) → List (Segment α) → Option Bool
  | _, [] => some true
  | I, O :: later => do
      match ← advanceTo segments I O.Start with
      | [] => some false
      | S :: rest =>
        if O.Start < S.Start then some false
        else
          match coverEnd O.End (S :: rest) with
          | none => some false
          | some I => coversFrom segments I later

def covers (A Other : LiveRange α) : Option Bool :=
  if A.segments = [] then some Other.segments.isEmpty
  else coversFrom A.segments A.segments Other.segments

def isLiveFrom (segments : List (Segment α)) : List (Segment α) → List α → Option Bool
  | _, [] => some false
  | SegmentI, Slot :: later => do
      match ← advanceTo segments SegmentI Slot with
      | [] => some false
      | S :: rest =>
        if S.contains Slot then some true else isLiveFrom segments (S :: rest) later

def isLiveAtIndexes (A : LiveRange α) (Slots : List α) : Option Bool :=
  match Slots with
  | [] => some false
  | Slot :: _ =>
    match find A.segments Slot with
    | [] => some false
    | SegmentI => isLiveFrom A.segments SegmentI Slots

def extendPrevious (V2 : ValNo) (before : List (Segment α)) (S : Segment α) :
    List (Segment α) × Segment α :=
  match before.getLast? with
  | none => (before, S)
  | some Prev =>
    if Prev.valno = V2 ∧ Prev.End = S.Start then (before.dropLast, { Prev with End := S.End })
    else (before, S)

def mergeLater (V2 : ValNo) (S : Segment α) :
    List (Segment α) → Segment α × List (Segment α)
  | [] => (S, [])
  | I :: rest =>
    if I.Start = S.End ∧ I.valno = V2 then ({ S with End := I.End }, rest) else (S, I :: rest)

def mergeTurn (V1 V2 : ValNo) :
    List (Segment α) × List (Segment α) →
      Turn (List (Segment α) × List (Segment α)) (List (Segment α))
  | (before, []) => .exit before
  | (before, S :: I) =>
    if S.valno ≠ V1 then .next (before ++ [S], I)
    else
      let (before, S) := extendPrevious V2 before S
      let (S, I) := mergeLater V2 { S with valno := V2 } I
      .next (before ++ [S], I)

def markValNoForDeletion (mem : Memory α) (LR : LiveRange α) (V : ValNo) :
    Memory α × LiveRange α :=
  if (mem V).id = LR.valnos.length - 1 then
    (mem, { LR with valnos := LR.valnos.dropLast.rdropWhile fun W => (mem W).isUnused })
  else (Function.update mem V { mem V with Def := none }, LR)

def MergeValueNumberInto (mem : Memory α) (LR : LiveRange α) (V1 V2 : ValNo) :
    Option (Memory α × LiveRange α × ValNo) :=
  if V1 = V2 then none
  else do
    -- Make sure `V2` is smaller than `V1`.
    let (mem, V1, V2) :=
      if (mem V1).id < (mem V2).id then
        (Function.update mem V1 { mem V1 with Def := (mem V2).Def }, V2, V1)
      else (mem, V1, V2)
    let segments ← loop (fun s => some (mergeTurn V1 V2 s)) (LR.segments.length + 1)
      ([], LR.segments)
    let (mem, LR) := markValNoForDeletion mem { LR with segments } V1
    some (mem, LR, V2)

end SmlnjLlvm.LiveInterval
