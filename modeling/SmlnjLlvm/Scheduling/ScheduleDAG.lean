import Mathlib.Algebra.Group.Nat.Defs
import Mathlib.Logic.Function.Basic
import SmlnjLlvm.Library.Loop

/-!
# Scheduling units and their dependences

A graph of units that list their predecessors and successors. Depths and
heights are kept with flags that tell whether they are current, and are
recomputed on demand. A result is absent where an assertion fails or the turns
of a loop run out.
-/

namespace SmlnjLlvm.Scheduling

open Loop

inductive Kind where
  | Data
  | Anti
  | Output
  | Order
  deriving DecidableEq

def Weak : Nat := 4

/-- `Contents` is the register or the kind of order. -/
structure SDep (V : Type) where
  SUnit : V
  Kind : Kind
  Contents : Nat
  Latency : Nat
  deriving DecidableEq

variable {V : Type} [DecidableEq V]

def SDep.overlaps (D Other : SDep V) : Bool :=
  decide (D.SUnit = Other.SUnit ∧ D.Kind = Other.Kind ∧ D.Contents = Other.Contents)

def SDep.isWeak (D : SDep V) : Bool := decide (D.Kind = .Order ∧ Weak ≤ D.Contents)

def UINT_MAX : Nat := 2 ^ 32 - 1

structure SUnit (V : Type) where
  Preds : List (SDep V) := []
  Succs : List (SDep V) := []
  NumPreds : Nat := 0
  NumSuccs : Nat := 0
  NumPredsLeft : Nat := 0
  NumSuccsLeft : Nat := 0
  WeakPredsLeft : Nat := 0
  WeakSuccsLeft : Nat := 0
  isScheduled : Bool := false
  isDepthCurrent : Bool := false
  isHeightCurrent : Bool := false
  Depth : Nat := 0
  Height : Nat := 0

abbrev DAG (V : Type) : Type := V → SUnit V

def DAG.modify (s : DAG V) (n : V) (f : SUnit V → SUnit V) : DAG V := Function.update s n (f (s n))

/-- Depths are computed along predecessors, heights along successors. -/
inductive Side where
  | depth
  | height

namespace SUnit

def ins (u : SUnit V) : Side → List (SDep V)
  | .depth => u.Preds
  | .height => u.Succs

def outs (u : SUnit V) : Side → List (SDep V)
  | .depth => u.Succs
  | .height => u.Preds

def current (u : SUnit V) : Side → Bool
  | .depth => u.isDepthCurrent
  | .height => u.isHeightCurrent

def value (u : SUnit V) : Side → Nat
  | .depth => u.Depth
  | .height => u.Height

def setCurrent (side : Side) (b : Bool) (u : SUnit V) : SUnit V :=
  match side with
  | .depth => { u with isDepthCurrent := b }
  | .height => { u with isHeightCurrent := b }

def setValue (side : Side) (k : Nat) (u : SUnit V) : SUnit V :=
  match side with
  | .depth => { u with Depth := k }
  | .height => { u with Height := k }

end SUnit

def dirtyTurn (side : Side) (p : DAG V × List V) : Option (Turn (DAG V × List V) (DAG V)) :=
  match p.2 with
  | [] => some (.exit p.1)
  | SU :: WorkList =>
    let s := p.1.modify SU (SUnit.setCurrent side false)
    let pushed := (((s SU).outs side).map SDep.SUnit).filter fun x => (s x).current side
    some (.next (s, pushed.reverse ++ WorkList))

def setDirty (side : Side) (fuel : Nat) (s : DAG V) (n : V) : Option (DAG V) :=
  if (s n).current side then loop (dirtyTurn side) fuel (s, [n]) else some s

def maxOver (side : Side) (s : DAG V) (edges : List (SDep V)) : Nat :=
  edges.foldl (fun Max D =>
    if (s D.SUnit).current side then max Max (((s D.SUnit).value side + D.Latency) % 2 ^ 32)
    else Max) 0

def computeTurn (side : Side) (fuel : Nat) (p : DAG V × List V) :
    Option (Turn (DAG V × List V) (DAG V)) :=
  match p.2 with
  | [] => some (.exit p.1)
  | Cur :: WorkList =>
    let s := p.1
    let edges := (s Cur).ins side
    let pushed := (edges.map SDep.SUnit).filter fun x => !(s x).current side
    let Max := maxOver side s edges
    if pushed = [] then do
      let s ←
        if Max ≠ (s Cur).value side then do
          let s ← setDirty side fuel s Cur
          some (s.modify Cur (SUnit.setValue side Max))
        else some s
      some (.next (s.modify Cur (SUnit.setCurrent side true), WorkList))
    else some (.next (s, pushed.reverse ++ Cur :: WorkList))

def compute (side : Side) (fuel : Nat) (s : DAG V) (n : V) : Option (DAG V) :=
  loop (computeTurn side fuel) fuel (s, [n])

def getValue (side : Side) (fuel : Nat) (s : DAG V) (n : V) : Option (DAG V × Nat) := do
  let s ← if (s n).current side then some s else compute side fuel s n
  some (s, (s n).value side)

def setDepthDirty (fuel : Nat) (s : DAG V) (n : V) : Option (DAG V) := setDirty .depth fuel s n

def setHeightDirty (fuel : Nat) (s : DAG V) (n : V) : Option (DAG V) := setDirty .height fuel s n

def ComputeDepth (fuel : Nat) (s : DAG V) (n : V) : Option (DAG V) := compute .depth fuel s n

def ComputeHeight (fuel : Nat) (s : DAG V) (n : V) : Option (DAG V) := compute .height fuel s n

def getDepth (fuel : Nat) (s : DAG V) (n : V) : Option (DAG V × Nat) := getValue .depth fuel s n

def getHeight (fuel : Nat) (s : DAG V) (n : V) : Option (DAG V × Nat) := getValue .height fuel s n

/-! ## New and old edges -/

/-- What the search for an equal dependence finds. -/
inductive Found (V : Type) where
  | absent
  | redundant
  | overlapping (PredDep : SDep V)

def findPred (D : SDep V) (Required : Bool) : List (SDep V) → Found V
  | [] => .absent
  | PredDep :: Preds =>
    if !Required && decide (PredDep.SUnit = D.SUnit) then .redundant
    else if PredDep.overlaps D then .overlapping PredDep
    else findPred D Required Preds

def setLatency (found : SDep V → Bool) (Lat : Nat) : List (SDep V) → List (SDep V)
  | [] => []
  | D :: edges =>
    if found D then { D with Latency := Lat } :: edges else D :: setLatency found Lat edges

def raiseLatency (s : DAG V) (n : V) (PredDep : SDep V) (Lat : Nat) : DAG V :=
  let ForwardD := { PredDep with SUnit := n }
  let s := s.modify PredDep.SUnit fun u =>
    { u with Succs := setLatency (fun SuccDep => decide (SuccDep = ForwardD)) Lat u.Succs }
  s.modify n fun u => { u with Preds := setLatency (fun D => D.overlaps PredDep) Lat u.Preds }

def countDataAdded (s : DAG V) (n : V) (D : SDep V) : Option (DAG V) :=
  let N := D.SUnit
  if D.Kind = .Data then do
    guard ((s n).NumPreds < UINT_MAX)
    guard ((s N).NumSuccs < UINT_MAX)
    let s := s.modify n fun u => { u with NumPreds := u.NumPreds + 1 }
    some (s.modify N fun u => { u with NumSuccs := u.NumSuccs + 1 })
  else some s

def countPredAdded (s : DAG V) (n : V) (D : SDep V) : Option (DAG V) :=
  let N := D.SUnit
  if (s N).isScheduled then some s
  else if D.isWeak then
    some (s.modify n fun u => { u with WeakPredsLeft := (u.WeakPredsLeft + 1) % 2 ^ 32 })
  else do
    guard ((s n).NumPredsLeft < UINT_MAX)
    some (s.modify n fun u => { u with NumPredsLeft := u.NumPredsLeft + 1 })

def countSuccAdded (s : DAG V) (n : V) (D : SDep V) : Option (DAG V) :=
  let N := D.SUnit
  if (s n).isScheduled then some s
  else if D.isWeak then
    some (s.modify N fun u => { u with WeakSuccsLeft := (u.WeakSuccsLeft + 1) % 2 ^ 32 })
  else do
    guard ((s N).NumSuccsLeft < UINT_MAX)
    some (s.modify N fun u => { u with NumSuccsLeft := u.NumSuccsLeft + 1 })

def countAdded (s : DAG V) (n : V) (D : SDep V) : Option (DAG V) := do
  let s ← countDataAdded s n D
  let s ← countPredAdded s n D
  countSuccAdded s n D

def insertEdge (s : DAG V) (n : V) (D : SDep V) : DAG V :=
  let s := s.modify n fun u => { u with Preds := u.Preds ++ [D] }
  s.modify D.SUnit fun u => { u with Succs := u.Succs ++ [{ D with SUnit := n }] }

def setBothDirty (fuel : Nat) (s : DAG V) (n N : V) (Latency : Nat) : Option (DAG V) :=
  if Latency ≠ 0 then do
    let s ← setDepthDirty fuel s n
    setHeightDirty fuel s N
  else some s

def addPred (fuel : Nat) (s : DAG V) (n : V) (D : SDep V) (Required : Bool) :
    Option (DAG V × Bool) :=
  match findPred D Required (s n).Preds with
  | .redundant => some (s, false)
  | .overlapping PredDep =>
    some (if PredDep.Latency < D.Latency then raiseLatency s n PredDep D.Latency else s, false)
  | .absent => do
      let s ← countAdded s n D
      let s ← setBothDirty fuel (insertEdge s n D) n D.SUnit D.Latency
      some (s, true)

def countDataRemoved (s : DAG V) (n : V) (D : SDep V) : Option (DAG V) :=
  let N := D.SUnit
  if D.Kind = .Data then do
    guard (0 < (s n).NumPreds)
    guard (0 < (s N).NumSuccs)
    let s := s.modify n fun u => { u with NumPreds := u.NumPreds - 1 }
    some (s.modify N fun u => { u with NumSuccs := u.NumSuccs - 1 })
  else some s

def countPredRemoved (s : DAG V) (n : V) (D : SDep V) : Option (DAG V) :=
  let N := D.SUnit
  if (s N).isScheduled then some s
  else if D.isWeak then do
    guard (0 < (s n).WeakPredsLeft)
    some (s.modify n fun u => { u with WeakPredsLeft := u.WeakPredsLeft - 1 })
  else do
    guard (0 < (s n).NumPredsLeft)
    some (s.modify n fun u => { u with NumPredsLeft := u.NumPredsLeft - 1 })

def countSuccRemoved (s : DAG V) (n : V) (D : SDep V) : Option (DAG V) :=
  let N := D.SUnit
  if (s n).isScheduled then some s
  else if D.isWeak then do
    guard (0 < (s N).WeakSuccsLeft)
    some (s.modify N fun u => { u with WeakSuccsLeft := u.WeakSuccsLeft - 1 })
  else do
    guard (0 < (s N).NumSuccsLeft)
    some (s.modify N fun u => { u with NumSuccsLeft := u.NumSuccsLeft - 1 })

def countRemoved (s : DAG V) (n : V) (D : SDep V) : Option (DAG V) := do
  let s ← countDataRemoved s n D
  let s ← countPredRemoved s n D
  countSuccRemoved s n D

def eraseEdge (s : DAG V) (n : V) (D : SDep V) : DAG V :=
  let s := s.modify D.SUnit fun u => { u with Succs := u.Succs.erase { D with SUnit := n } }
  s.modify n fun u => { u with Preds := u.Preds.erase D }

def removePred (fuel : Nat) (s : DAG V) (n : V) (D : SDep V) : Option (DAG V) :=
  if D ∈ (s n).Preds then do
    guard ({ D with SUnit := n } ∈ (s D.SUnit).Succs)
    let s ← countRemoved s n D
    setBothDirty fuel (eraseEdge s n D) n D.SUnit D.Latency
  else some s

/-- The operations that may follow each other in any order. -/
inductive Op (V : Type) where
  | addPred (n : V) (D : SDep V) (Required : Bool)
  | removePred (n : V) (D : SDep V)
  | getDepth (n : V)
  | getHeight (n : V)

def exec (fuel : Nat) (s : DAG V) : Op V → Option (DAG V)
  | .addPred n D Required => (addPred fuel s n D Required).map Prod.fst
  | .removePred n D => removePred fuel s n D
  | .getDepth n => (getDepth fuel s n).map Prod.fst
  | .getHeight n => (getHeight fuel s n).map Prod.fst

end SmlnjLlvm.Scheduling
