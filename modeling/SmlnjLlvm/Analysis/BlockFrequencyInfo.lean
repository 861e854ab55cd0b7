import SmlnjLlvm.Support.BranchProbability
import SmlnjLlvm.Support.MathExtras

/-!
# Block masses and their distribution

Weights of the edges out of a block, the step that brings their total into 32
bits, and the division of the block's mass among the targets. A result is
absent where an assertion fails.
-/

namespace SmlnjLlvm.BlockFrequency

open Support

abbrev BlockMass : Type := BitVec 64

namespace BlockMass

def add (Mass X : BlockMass) : BlockMass :=
  let Sum := Mass + X
  if Sum < Mass then BitVec.allOnes 64 else Sum

def sub (Mass X : BlockMass) : BlockMass :=
  let Diff := Mass - X
  if Mass < Diff then 0 else Diff

end BlockMass

structure BlockNode where
  Index : BitVec 32
  deriving DecidableEq

def BlockNode.getMaxIndex : BitVec 32 := BitVec.ofNat 32 (2 ^ 32 - 2)

def BlockNode.isValid (Node : BlockNode) : Bool := decide (Node.Index ≤ getMaxIndex)

inductive DistType where
  | Local
  | Exit
  | Backedge
  deriving DecidableEq

structure Weight where
  type : DistType := .Local
  TargetNode : BlockNode := ⟨BitVec.allOnes 32⟩
  Amount : BitVec 64 := 0
  deriving DecidableEq

structure Distribution where
  Weights : List Weight := []
  Total : BitVec 64 := 0
  DidOverflow : Bool := false

def Distribution.add (Dist : Distribution) (W : Weight) : Option Distribution := do
  guard (W.Amount ≠ 0)
  let NewTotal := Dist.Total + W.Amount
  let IsOverflow := decide (NewTotal < Dist.Total)
  guard (¬(Dist.DidOverflow ∧ IsOverflow))
  some ⟨Dist.Weights ++ [W], NewTotal, Dist.DidOverflow || IsOverflow⟩

def Distribution.addAll (ws : List Weight) : Option Distribution := ws.foldlM Distribution.add {}

def combineWeight (W OtherW : Weight) : Option Weight := do
  guard OtherW.TargetNode.isValid
  if W.Amount = 0 then some OtherW
  else do
    guard (W.type = OtherW.type)
    guard (W.TargetNode = OtherW.TargetNode)
    guard (OtherW.Amount ≠ 0)
    some (if W.Amount + OtherW.Amount < W.Amount then { W with Amount := BitVec.allOnes 64 }
      else { W with Amount := W.Amount + OtherW.Amount })

/--
What the sort and the hash table leave open: the order of weights with equal
targets, and the order in which the entries of a table are visited.
-/
structure Containers where
  sort : List Weight → List Weight
  sort_perm : ∀ ws, (sort ws).Perm ws
  sort_sorted : ∀ ws, (sort ws).Pairwise fun L R => L.TargetNode.Index ≤ R.TargetNode.Index
  visit : List Weight → List Weight
  visit_perm : ∀ ws, (visit ws).Perm ws

def combineAdjacent (O : Weight) : List Weight → Option (List Weight)
  | [] => some [O]
  | L :: rest =>
    if O.TargetNode = L.TargetNode then do
      let O ← combineWeight O L
      combineAdjacent O rest
    else do
      let others ← combineAdjacent L rest
      some (O :: others)

def combineWeightsBySorting (c : Containers) (Weights : List Weight) : Option (List Weight) :=
  match c.sort Weights with
  | [] => some []
  | O :: rest => combineAdjacent O rest

def combineInto (W : Weight) : List (BitVec 32 × Weight) → Option (List (BitVec 32 × Weight))
  | [] => do
      let W' ← combineWeight {} W
      some [(W.TargetNode.Index, W')]
  | entry :: rest =>
    if entry.1 = W.TargetNode.Index then do
      let W' ← combineWeight entry.2 W
      some ((entry.1, W') :: rest)
    else do
      let rest ← combineInto W rest
      some (entry :: rest)

def combineWeightsByHashing (c : Containers) (Weights : List Weight) : Option (List Weight) := do
  let Combined ← Weights.foldlM (fun Combined W => combineInto W Combined) []
  if Weights.length = Combined.length then some Weights
  else some (c.visit (Combined.map Prod.snd))

def combineWeights (c : Containers) (Weights : List Weight) : Option (List Weight) :=
  if Weights.length > 128 then combineWeightsByHashing c Weights
  else combineWeightsBySorting c Weights

def UINT32_MAX : BitVec 64 := BitVec.ofNat 64 (2 ^ 32 - 1)

def shiftRightAndRound (N : BitVec 64) (Shift : Int) : Option (BitVec 64) := do
  guard (0 ≤ Shift)
  guard (Shift < 64)
  if Shift = 0 then some N
  else some (N >>> Shift.toNat + (1 &&& N >>> (Shift - 1).toNat))

def scaleWeights (Shift : Int) (Weights : List Weight) (Total : BitVec 64) :
    Option (List Weight × BitVec 64) :=
  match Weights with
  | [] => some ([], Total)
  | W :: rest => do
      guard W.TargetNode.isValid
      let Rounded ← shiftRightAndRound W.Amount Shift
      let Amount := if Rounded < 1 then 1 else Rounded
      guard (Amount ≤ UINT32_MAX)
      let scaled ← scaleWeights Shift rest (Total + Amount)
      some ({ W with Amount := Amount } :: scaled.1, scaled.2)

def Distribution.shift (Dist : Distribution) : Int :=
  if Dist.DidOverflow then 33
  else if UINT32_MAX < Dist.Total then 33 - countl_zero Dist.Total
  else 0

def Distribution.scaleDown (Dist : Distribution) : Option Distribution :=
  match Dist.Weights with
  | [W] => some { Dist with Weights := [{ W with Amount := 1 }], Total := 1 }
  | Weights =>
    if Dist.shift = 0 then do
      guard (Dist.Total = Weights.foldl (fun Sum W => Sum + W.Amount) 0)
      some Dist
    else do
      let scaled ← scaleWeights Dist.shift Weights 0
      guard (scaled.2 ≤ UINT32_MAX)
      some { Dist with Weights := scaled.1, Total := scaled.2 }

def Distribution.normalize (c : Containers) (Dist : Distribution) : Option Distribution :=
  if Dist.Weights = [] then some Dist
  else if Dist.Weights.length > 1 then do
    let Weights ← combineWeights c Dist.Weights
    Distribution.scaleDown { Dist with Weights := Weights }
  else Dist.scaleDown

structure LoopData where
  Parent : Option Nat
  IsPackaged : Bool
  NumHeaders : Nat
  Exits : List (BlockNode × BlockMass)
  Nodes : List BlockNode
  BackedgeMass : List BlockMass
  Mass : BlockMass

structure WorkingData where
  Node : BlockNode
  Loop : Option Nat
  Mass : BlockMass

/-- The blocks by their index. Loops refer to each other by their position. -/
structure BlockFrequencyInfoImplBase where
  Working : List WorkingData
  Loops : List LoopData

def LoopData.isIrreducible (L : LoopData) : Bool := decide (L.NumHeaders > 1)

def LoopData.lowerBound (L : LoopData) (Node : BlockNode) : Nat :=
  (L.Nodes.take L.NumHeaders).findIdx fun N => decide (¬N.Index < Node.Index)

def LoopData.isHeader (L : LoopData) (Node : BlockNode) : Bool :=
  if L.isIrreducible then
    match (L.Nodes.take L.NumHeaders)[L.lowerBound Node]? with
    | some N => decide (¬Node.Index < N.Index)
    | none => false
  else L.Nodes.head? == some Node

def LoopData.getHeaderIndex (L : LoopData) (B : BlockNode) : Option Nat := do
  guard (L.isHeader B)
  some (if L.isIrreducible then L.lowerBound B else 0)

namespace BlockFrequencyInfoImplBase

variable (bfi : BlockFrequencyInfoImplBase)

def headedLoop (W : WorkingData) : Option LoopData := do
  let l ← W.Loop
  let L ← bfi.Loops[l]?
  if L.isHeader W.Node then some L else none

def doublyHeadedLoop (W : WorkingData) : Option LoopData := do
  let L ← bfi.headedLoop W
  let p ← L.Parent
  let P ← bfi.Loops[p]?
  if P.isIrreducible && P.isHeader W.Node then some P else none

/-- Where the mass of a block is kept. -/
inductive MassCell where
  | block (i : Nat)
  | loop (l : Nat)

def massCell (Node : BlockNode) : Option MassCell := do
  let W ← bfi.Working[Node.Index.toNat]?
  match bfi.headedLoop W with
  | none => some (.block Node.Index.toNat)
  | some L =>
    if ¬L.IsPackaged then some (.block Node.Index.toNat)
    else
      match bfi.doublyHeadedLoop W with
      | none => W.Loop.map .loop
      | some P => if P.IsPackaged then L.Parent.map .loop else W.Loop.map .loop

def getMass (Node : BlockNode) : Option BlockMass := do
  let cell ← bfi.massCell Node
  match cell with
  | .block i => bfi.Working[i]?.map WorkingData.Mass
  | .loop l => bfi.Loops[l]?.map LoopData.Mass

def addMass (Node : BlockNode) (Taken : BlockMass) : Option BlockFrequencyInfoImplBase := do
  let cell ← bfi.massCell Node
  match cell with
  | .block i =>
    some { bfi with
      Working := bfi.Working.modify i fun W => { W with Mass := BlockMass.add W.Mass Taken } }
  | .loop l =>
    some { bfi with
      Loops := bfi.Loops.modify l fun L => { L with Mass := BlockMass.add L.Mass Taken } }

def assign (OuterLoop : Option Nat) (W : Weight) (Taken : BlockMass) :
    Option BlockFrequencyInfoImplBase :=
  match W.type with
  | .Local => bfi.addMass W.TargetNode Taken
  | .Backedge => do
      let l ← OuterLoop
      let L ← bfi.Loops[l]?
      let i ← L.getHeaderIndex W.TargetNode
      guard (i < L.BackedgeMass.length)
      some { bfi with
        Loops := bfi.Loops.set l
          { L with BackedgeMass := L.BackedgeMass.modify i fun Mass => BlockMass.add Mass Taken } }
  | .Exit => do
      let l ← OuterLoop
      let L ← bfi.Loops[l]?
      some { bfi with
        Loops := bfi.Loops.set l { L with Exits := L.Exits ++ [(W.TargetNode, Taken)] } }

end BlockFrequencyInfoImplBase

structure DitheringDistributer where
  RemWeight : BitVec 32
  RemMass : BlockMass

def DitheringDistributer.takeMass (D : DitheringDistributer) (Weight : BitVec 32) :
    Option (BlockMass × DitheringDistributer) := do
  guard (Weight ≠ 0)
  guard (Weight ≤ D.RemWeight)
  let P ← BranchProbability.ofFraction Weight D.RemWeight
  let Mass := P.scale D.RemMass
  some (Mass, ⟨D.RemWeight - Weight, BlockMass.sub D.RemMass Mass⟩)

def distributeWeights (OuterLoop : Option Nat) :
    List Weight → DitheringDistributer → BlockFrequencyInfoImplBase →
      Option BlockFrequencyInfoImplBase
  | [], _, bfi => some bfi
  | W :: rest, D, bfi => do
      let taken ← D.takeMass (W.Amount.setWidth 32)
      let bfi ← bfi.assign OuterLoop W taken.1
      distributeWeights OuterLoop rest taken.2 bfi

def distributeMass (c : Containers) (bfi : BlockFrequencyInfoImplBase) (Source : BlockNode)
    (OuterLoop : Option Nat) (Dist : Distribution) :
    Option (BlockFrequencyInfoImplBase × Distribution) := do
  let Mass ← bfi.getMass Source
  let Dist ← Dist.normalize c
  let bfi ← distributeWeights OuterLoop Dist.Weights ⟨Dist.Total.setWidth 32, Mass⟩ bfi
  some (bfi, Dist)

end SmlnjLlvm.BlockFrequency
