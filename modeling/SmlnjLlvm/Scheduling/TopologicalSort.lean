import SmlnjLlvm.Scheduling.ScheduleDAG

/-!
# A topological order under changes of the edges

The units are known by their numbers. A new edge that goes backwards is put
right at once, or queued until the order is needed. A result is absent where an
assertion fails or the turns of a loop run out.
-/

namespace SmlnjLlvm.TopologicalSort

open Loop Scheduling

def BoundaryID : Nat := 2 ^ 32 - 1

/-- Both vectors have the same size. -/
structure Topo where
  ExitSU : Option Nat
  Dirty : Bool := false
  Updates : List (Nat × Nat) := []
  size : Nat := 0
  Index2Node : Nat → Nat := fun _ => 0
  Node2Index : Nat → Nat := fun _ => 0

def Allocate (t : Topo) (n index : Nat) : Topo :=
  { t with
    Node2Index := Function.update t.Node2Index n index
    Index2Node := Function.update t.Index2Node index n }

def releasePred (DAGSize : Nat) (p : Topo × List Nat) (PredDep : SDep Nat) : Topo × List Nat :=
  let SU := PredDep.SUnit
  if SU < DAGSize then
    let Degree := p.1.Node2Index SU
    let t := { p.1 with Node2Index := Function.update p.1.Node2Index SU (Degree - 1) }
    (t, if Degree = 1 then SU :: p.2 else p.2)
  else p

def initTurn (DAGSize : Nat) (s : DAG Nat) (p : (Topo × Nat) × List Nat) :
    Option (Turn ((Topo × Nat) × List Nat) Topo) :=
  match p.2 with
  | [] => some (.exit p.1.1)
  | SU :: WorkList =>
    let q := if SU < DAGSize then (Allocate p.1.1 SU (p.1.2 - 1), p.1.2 - 1) else p.1
    let r := (s SU).Preds.foldl (releasePred DAGSize) (q.1, WorkList)
    some (.next ((r.1, q.2), r.2))

def InitDAGTopologicalSorting (fuel DAGSize : Nat) (s : DAG Nat) (t : Topo) : Option Topo := do
  let degrees := fun n => if n < DAGSize then (s n).Succs.length else t.Node2Index n
  let leaves := (List.range DAGSize).filter fun n => (s n).Succs.isEmpty
  let t := { t with Dirty := false, Updates := [], size := DAGSize, Node2Index := degrees }
  let t ← loop (initTurn DAGSize s) fuel ((t, DAGSize), leaves.reverse ++ t.ExitSU.toList)
  guard (∀ SU < DAGSize, ∀ PD ∈ (s SU).Preds, t.Node2Index PD.SUnit < t.Node2Index SU)
  some t

def pushSuccs (t : Topo) (UpperBound : Nat) (Visited : Nat → Bool) :
    List (SDep Nat) → List Nat → Option (List Nat)
  | [], WorkList => some WorkList
  | SuccDep :: Succs, WorkList =>
    let s := SuccDep.SUnit
    if t.size ≤ s then pushSuccs t UpperBound Visited Succs WorkList
    else if t.Node2Index s = UpperBound then none
    else if !Visited s && decide (t.Node2Index s < UpperBound) then
      pushSuccs t UpperBound Visited Succs (s :: WorkList)
    else pushSuccs t UpperBound Visited Succs WorkList

def searchTurn (s : DAG Nat) (t : Topo) (UpperBound : Nat) (p : (Nat → Bool) × List Nat) :
    Option (Turn ((Nat → Bool) × List Nat) ((Nat → Bool) × Bool)) :=
  match p.2 with
  | [] => some (.exit (p.1, false))
  | SU :: WorkList =>
    let Visited := Function.update p.1 SU true
    match pushSuccs t UpperBound Visited (s SU).Succs.reverse WorkList with
    | none => some (.exit (Visited, true))
    | some WorkList => some (.next (Visited, WorkList))

def DFS (fuel : Nat) (s : DAG Nat) (t : Topo) (SU UpperBound : Nat) :
    Option ((Nat → Bool) × Bool) :=
  loop (searchTurn s t UpperBound) fuel (fun _ => false, [SU])

def shiftTurn (p : (Topo × (Nat → Bool)) × (List Nat × Nat)) (i : Nat) :
    (Topo × (Nat → Bool)) × (List Nat × Nat) :=
  let w := p.1.1.Index2Node i
  if p.1.2 w then ((p.1.1, Function.update p.1.2 w false), (p.2.1 ++ [w], p.2.2 + 1))
  else ((Allocate p.1.1 w (i - p.2.2), p.1.2), p.2)

def Shift (t : Topo) (Visited : Nat → Bool) (LowerBound UpperBound : Nat) : Topo :=
  let p := (List.range' LowerBound (UpperBound + 1 - LowerBound)).foldl shiftTurn
    ((t, Visited), ([], 0))
  let L := p.2.1
  let shift := p.2.2
  (L.foldl (fun q LI => (Allocate q.1 LI (q.2 - shift), q.2 + 1)) (p.1.1, UpperBound + 1)).1

def AddPred (fuel : Nat) (s : DAG Nat) (t : Topo) (Y X : Nat) : Option Topo :=
  let LowerBound := t.Node2Index Y
  let UpperBound := t.Node2Index X
  if LowerBound < UpperBound then do
    let (Visited, HasLoop) ← DFS fuel s t Y UpperBound
    guard (HasLoop = false)
    some (Shift t Visited LowerBound UpperBound)
  else some t

def AddPredQueued (t : Topo) (Y X : Nat) : Topo :=
  let t := { t with Dirty := t.Dirty || decide (10 < t.Updates.length) }
  if t.Dirty then t else { t with Updates := t.Updates ++ [(Y, X)] }

def RemovePred (t : Topo) (_M _N : Nat) : Topo := t

def FixOrder (fuel DAGSize : Nat) (s : DAG Nat) (t : Topo) : Option Topo :=
  if t.Dirty then InitDAGTopologicalSorting fuel DAGSize s t
  else do
    let t ← t.Updates.foldlM (fun t U => AddPred fuel s t U.1 U.2) t
    some { t with Updates := [] }

def AddSUnitWithoutPredecessors (s : DAG Nat) (t : Topo) (SU : Nat) : Option Topo := do
  guard (SU = t.size)
  guard ((s SU).NumPreds = 0)
  some { t with
    size := t.size + 1
    Node2Index := Function.update t.Node2Index t.size t.size
    Index2Node := Function.update t.Index2Node t.size SU }

def IsReachable (fuel DAGSize : Nat) (s : DAG Nat) (t : Topo) (SU TargetSU : Nat) :
    Option (Topo × Bool) := do
  let t ← FixOrder fuel DAGSize s t
  let LowerBound := t.Node2Index TargetSU
  let UpperBound := t.Node2Index SU
  if LowerBound < UpperBound then do
    let (_, HasLoop) ← DFS fuel s t TargetSU UpperBound
    some (t, HasLoop)
  else some (t, false)

end SmlnjLlvm.TopologicalSort
