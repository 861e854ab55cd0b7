import SmlnjLlvm.Library.Loop
import SmlnjLlvm.Library.Components
import Mathlib.Data.Set.Card

/-!
# Strongly connected components in reverse topological order

The iterator runs Tarjan's algorithm with a stack of its own and stops at each
component. Visit numbers are 32-bit; the largest one marks the nodes of the
components that it has returned.
-/

namespace SmlnjLlvm.Adt

open Relation Loop Components

variable {NodeRef : Type}

/-! ## The iterator -/

/-- A frame of the search; the child iterator is the list of children that are left. -/
structure StackElement (NodeRef : Type) where
  Node : NodeRef
  NextChild : List NodeRef
  MinVisited : Nat

/-- The last element of a vector is the head of its list, but for `CurrentSCC`. -/
structure SCCIterator (NodeRef : Type) where
  visitNum : Nat
  nodeVisitNumbers : NodeRef → Option Nat
  SCCNodeStack : List NodeRef
  CurrentSCC : List NodeRef
  VisitStack : List (StackElement NodeRef)

/-- `~0U` -/
def allOnes : Nat := 2 ^ 32 - 1

variable {V : List (StackElement NodeRef)} {j : Nat}

namespace SCCIterator

section Code

variable [DecidableEq NodeRef]

def dfsVisitOne (children : NodeRef → List NodeRef) (N : NodeRef) (s : SCCIterator NodeRef) :
    SCCIterator NodeRef :=
  let visitNum := (s.visitNum + 1) % 2 ^ 32
  { s with
    visitNum
    nodeVisitNumbers := Function.update s.nodeVisitNumbers N (some visitNum)
    SCCNodeStack := N :: s.SCCNodeStack
    VisitStack := ⟨N, children N, visitNum⟩ :: s.VisitStack }

/-- One turn of the loop of `DFSVisitChildren`. -/
def dfsVisitChild (children : NodeRef → List NodeRef) (s : SCCIterator NodeRef) :
    Option (Turn (SCCIterator NodeRef) (SCCIterator NodeRef)) :=
  match s.VisitStack with
  | [] => none
  | top :: below =>
    match top.NextChild with
    | [] => some (.exit s)
    | childN :: rest =>
      let top := { top with NextChild := rest }
      match s.nodeVisitNumbers childN with
      | none => some (.next (dfsVisitOne children childN { s with VisitStack := top :: below }))
      | some childNum =>
        let MinVisited := if childNum < top.MinVisited then childNum else top.MinVisited
        some (.next { s with VisitStack := { top with MinVisited } :: below })

def dfsVisitChildren (children : NodeRef → List NodeRef) (fuel : Nat) (s : SCCIterator NodeRef) :
    Option (SCCIterator NodeRef) := do
  guard (!s.VisitStack.isEmpty)
  loop (dfsVisitChild children) fuel s

/-- Moves the nodes above `visitingN`, and it, from the stack to the component. -/
def popSCC (visitingN : NodeRef) :
    List NodeRef → SCCIterator NodeRef → Option (SCCIterator NodeRef)
  | [], _ => none
  | N :: rest, s =>
    let s := { s with
      CurrentSCC := s.CurrentSCC ++ [N]
      SCCNodeStack := rest
      nodeVisitNumbers := Function.update s.nodeVisitNumbers N (some allOnes) }
    if N = visitingN then some s else popSCC visitingN rest s

/-- Propagates the minimum of a frame to its parent. -/
def propagate (minVisitNum : Nat) : List (StackElement NodeRef) → List (StackElement NodeRef)
  | [] => []
  | parent :: rest =>
    (if minVisitNum < parent.MinVisited then { parent with MinVisited := minVisitNum }
      else parent) :: rest

/-- One turn of the loop of `GetNextSCC`. -/
def popFrame (children : NodeRef → List NodeRef) (fuel : Nat) (s : SCCIterator NodeRef) :
    Option (Turn (SCCIterator NodeRef) (SCCIterator NodeRef)) :=
  if s.VisitStack.isEmpty then some (.exit s)
  else do
    let s ← dfsVisitChildren children fuel s
    match s.VisitStack with
    | [] => none
    | top :: below =>
      guard top.NextChild.isEmpty
      let s := { s with VisitStack := propagate top.MinVisited below }
      if top.MinVisited ≠ (s.nodeVisitNumbers top.Node).getD 0 then some (.next s)
      else (popSCC top.Node s.SCCNodeStack s).map .exit

def getNextSCC (children : NodeRef → List NodeRef) (fuel : Nat) (s : SCCIterator NodeRef) :
    Option (SCCIterator NodeRef) :=
  loop (popFrame children fuel) fuel { s with CurrentSCC := [] }

def scc_begin (children : NodeRef → List NodeRef) (fuel : Nat) (entryN : NodeRef) :
    Option (SCCIterator NodeRef) :=
  getNextSCC children fuel (dfsVisitOne children entryN ⟨0, fun _ => none, [], [], []⟩)

def isAtEnd (s : SCCIterator NodeRef) : Option Bool := do
  guard (!s.CurrentSCC.isEmpty || s.VisitStack.isEmpty)
  some s.CurrentSCC.isEmpty

def hasCycle (children : NodeRef → List NodeRef) (s : SCCIterator NodeRef) : Option Bool :=
  match s.CurrentSCC with
  | [] => none
  | N :: rest => some (decide (1 < (N :: rest).length) || (children N).any (· == N))

/-- The next position, after the ones in `its`. -/
def advance (children : NodeRef → List NodeRef) (fuel : Nat) :
    SCCIterator NodeRef × List (SCCIterator NodeRef) →
      Option (Turn (SCCIterator NodeRef × List (SCCIterator NodeRef)) (List (SCCIterator NodeRef)))
  | (it, its) => do
      if ← it.isAtEnd then some (.exit its)
      else
        let it' ← it.getNextSCC children fuel
        some (.next (it', its ++ [it]))

/-- The positions of the iterator from `scc_begin` to the end. -/
def enumerate (children : NodeRef → List NodeRef) (fuel : Nat) (entryN : NodeRef) :
    Option (List (SCCIterator NodeRef)) := do
  let it ← scc_begin children fuel entryN
  loop (advance children fuel) fuel (it, [])

end Code

/-- The edges of the graph. -/
def Edge (children : NodeRef → List NodeRef) (a b : NodeRef) : Prop := b ∈ children a

def Reaches (children : NodeRef → List NodeRef) : NodeRef → NodeRef → Prop :=
  ReflTransGen (Edge children)

variable {children : NodeRef → List NodeRef} {num num' : NodeRef → Option Nat}

/--
A frame answers for the nodes numbered from its own, `k`, up to the next frame's, `hi`.
They are below it in the search tree, their edges lead to no number smaller than its
minimum, and each but its own reaches a smaller number.
-/
structure Segment (children : NodeRef → List NodeRef) (num : NodeRef → Option Nat)
    (f : StackElement NodeRef) (k hi : Nat) : Prop where
  number : num f.Node = some k
  lt : k < hi
  visited : ∃ seen, children f.Node = seen ++ f.NextChild ∧
    ∀ w ∈ seen, ∃ j, num w = some j ∧ f.MinVisited ≤ j
  min_le : f.MinVisited ≤ k
  low : ∃ y, num y = some f.MinVisited ∧ Reaches children f.Node y
  tree : ∀ x j, num x = some j → k ≤ j → j < hi → Reaches children f.Node x
  edges : ∀ x j, num x = some j → k < j → j < hi →
    ∀ w ∈ children x, ∃ i, num w = some i ∧ f.MinVisited ≤ i
  uplink : ∀ x j, num x = some j → k < j → j < hi →
    ∃ y i, num y = some i ∧ i < j ∧ Reaches children x y

/-- The frames of the stack; below its last frame there are no numbers. -/
inductive Frames (children : NodeRef → List NodeRef) (num : NodeRef → Option Nat) :
    Nat → List (StackElement NodeRef) → Prop where
  | nil {hi : Nat} (h : ∀ x j, num x = some j → hi ≤ j) : Frames children num hi []
  | cons {hi k : Nat} {f : StackElement NodeRef} {below : List (StackElement NodeRef)}
      (seg : Segment children num f k hi)
      (parent : ∀ p ∈ below.head?, Edge children p.Node f.Node)
      (rest : Frames children num k below) : Frames children num hi (f :: below)

/-- Numbers below `hi` are the same, and numbered nodes stay numbered. -/
structure Above (num num' : NodeRef → Option Nat) (hi : Nat) : Prop where
  below : ∀ x j, j < hi → (num' x = some j ↔ num x = some j)
  above : ∀ x j, num x = some j → hi ≤ j → ∃ i, num' x = some i ∧ hi ≤ i

theorem Above.mono {hi k : Nat} (h : Above num num' hi) (hle : k ≤ hi) : Above num num' k where
  below x j hj := h.below x j (Nat.lt_of_lt_of_le hj hle)
  above := by
    intro x j hx hj
    by_cases hlt : j < hi
    · exact ⟨j, (h.below x j hlt).mpr hx, hj⟩
    · obtain ⟨i, hi', hle'⟩ := h.above x j hx (Nat.not_lt.mp hlt)
      exact ⟨i, hi', Nat.le_trans hle hle'⟩

theorem Above.le {hi m : Nat} (h : Above num num' hi) (hm : m ≤ hi) {w : NodeRef}
    (hw : ∃ j, num w = some j ∧ m ≤ j) : ∃ j, num' w = some j ∧ m ≤ j := by
  obtain ⟨j, hj, hle⟩ := hw
  exact (h.mono hm).above w j hj hle

theorem Segment.frame {f : StackElement NodeRef} {k hi : Nat} (h : Above num num' hi)
    (hs : Segment children num f k hi) : Segment children num' f k hi := by
  have hmin : f.MinVisited < hi := Nat.lt_of_le_of_lt hs.min_le hs.lt
  refine ⟨(h.below _ _ hs.lt).mpr hs.number, hs.lt, ?_, hs.min_le, ?_, ?_, ?_, ?_⟩
  · obtain ⟨seen, hchildren, hseen⟩ := hs.visited
    exact ⟨seen, hchildren, fun w hw => h.le (Nat.le_of_lt hmin) (hseen w hw)⟩
  · obtain ⟨y, hy, hreach⟩ := hs.low
    exact ⟨y, (h.below _ _ hmin).mpr hy, hreach⟩
  · intro x j hx hk hj
    exact hs.tree x j ((h.below x j hj).mp hx) hk hj
  · intro x j hx hk hj w hw
    exact h.le (Nat.le_of_lt hmin) (hs.edges x j ((h.below x j hj).mp hx) hk hj w hw)
  · intro x j hx hk hj
    obtain ⟨y, i, hy, hlt, hreach⟩ := hs.uplink x j ((h.below x j hj).mp hx) hk hj
    exact ⟨y, i, (h.below y i (Nat.lt_trans hlt hj)).mpr hy, hlt, hreach⟩

theorem Frames.frame {hi : Nat} (h : Above num num' hi) (hf : Frames children num hi V) :
    Frames children num' hi V := by
  induction hf with
  | nil hnone =>
    refine .nil fun x j hx => ?_
    by_contra hlt
    have hj := Nat.not_le.mp hlt
    exact hlt (hnone x j ((h.below x j hj).mp hx))
  | cons seg parent _ ih => exact .cons (seg.frame h) parent (ih (h.mono (Nat.le_of_lt seg.lt)))

/-- The numbers and the node stack; `cs` are the components found so far. -/
structure Numbering (children : NodeRef → List NodeRef) (entryN : NodeRef) (nodes : Finset NodeRef)
    (cs : List (List NodeRef)) (s : SCCIterator NodeRef) : Prop where
  count : s.visitNum = (nodes.filter fun x => (s.nodeVisitNumbers x).isSome).card
  reach : ∀ x j, s.nodeVisitNumbers x = some j → Reaches children entryN x
  numbers : ∀ x j, s.nodeVisitNumbers x = some j → j ≤ s.visitNum ∨ j = allOnes
  inj : ∀ x y j, s.nodeVisitNumbers x = some j → s.nodeVisitNumbers y = some j →
    j ≤ s.visitNum → x = y
  stack_mem : ∀ x, x ∈ s.SCCNodeStack ↔ ∃ j, s.nodeVisitNumbers x = some j ∧ j ≤ s.visitNum
  stack_order : s.SCCNodeStack.Pairwise fun x y => ∃ i j,
    s.nodeVisitNumbers x = some i ∧ s.nodeVisitNumbers y = some j ∧ j < i
  found : ∀ x, x ∈ cs.flatten ↔ s.nodeVisitNumbers x = some allOnes
  enumeration : Enumeration (Edge children) cs

/-- What holds between two turns of the search. -/
structure Invariant (children : NodeRef → List NodeRef) (entryN : NodeRef) (nodes : Finset NodeRef)
    (cs : List (List NodeRef)) (s : SCCIterator NodeRef) : Prop
    extends Numbering children entryN nodes cs s where
  frames : Frames children s.nodeVisitNumbers (s.visitNum + 1) s.VisitStack
  entry : s.nodeVisitNumbers entryN ≠ none

/-! ## Frames -/

theorem Segment.single {N : NodeRef} {n : Nat} (hN : num N = some n)
    (honly : ∀ x, num x = some n → x = N) :
    Segment children num ⟨N, children N, n⟩ n (n + 1) where
  number := hN
  lt := Nat.lt_succ_self n
  visited := ⟨[], rfl, fun w hw => absurd hw List.not_mem_nil⟩
  min_le := Nat.le_refl n
  low := ⟨N, hN, ReflTransGen.refl⟩
  tree := by
    intro x j hx hn hj
    have heq : j = n := by omega
    rw [honly x (heq ▸ hx)]
    exact ReflTransGen.refl
  edges x j _ hn hj := by omega
  uplink x j _ hn hj := by omega

theorem Segment.consume {f : StackElement NodeRef} {k hi : Nat} (h : Segment children num f k hi)
    {w : NodeRef} {rest : List NodeRef} (hnext : f.NextChild = w :: rest)
    (hw : ∃ j, num w = some j ∧ f.MinVisited ≤ j) :
    Segment children num { f with NextChild := rest } k hi where
  number := h.number
  lt := h.lt
  visited := by
    obtain ⟨seen, hchildren, hseen⟩ := h.visited
    refine ⟨seen ++ [w], ?_, ?_⟩
    · rw [hchildren, hnext, List.append_assoc]
      rfl
    · intro x hx
      rcases List.mem_append.mp hx with hx | hx
      · exact hseen x hx
      · rw [List.mem_singleton.mp hx]
        exact hw
  min_le := h.min_le
  low := h.low
  tree := h.tree
  edges := h.edges
  uplink := h.uplink

theorem Segment.next_edge {f : StackElement NodeRef} {k hi : Nat} (h : Segment children num f k hi)
    {w : NodeRef} {rest : List NodeRef} (hnext : f.NextChild = w :: rest) :
    Edge children f.Node w := by
  obtain ⟨seen, hchildren, _⟩ := h.visited
  unfold Edge
  rw [hchildren, hnext]
  exact List.mem_append_right _ List.mem_cons_self

theorem Segment.lower {f : StackElement NodeRef} {k hi m : Nat} (h : Segment children num f k hi)
    (hle : m ≤ f.MinVisited) (hlow : ∃ y, num y = some m ∧ Reaches children f.Node y) :
    Segment children num { f with MinVisited := m } k hi where
  number := h.number
  lt := h.lt
  visited := by
    obtain ⟨seen, hchildren, hseen⟩ := h.visited
    refine ⟨seen, hchildren, fun w hw => ?_⟩
    obtain ⟨j, hj, hmin⟩ := hseen w hw
    exact ⟨j, hj, Nat.le_trans hle hmin⟩
  min_le := Nat.le_trans hle h.min_le
  low := hlow
  tree := h.tree
  edges := by
    intro x j hx hk hj w hw
    obtain ⟨i, hi, hmin⟩ := h.edges x j hx hk hj w hw
    exact ⟨i, hi, Nat.le_trans hle hmin⟩
  uplink := h.uplink

theorem Segment.visited_all {f : StackElement NodeRef} {k hi : Nat}
    (h : Segment children num f k hi) (hnext : f.NextChild = []) :
    ∀ w ∈ children f.Node, ∃ j, num w = some j ∧ f.MinVisited ≤ j := by
  obtain ⟨seen, hchildren, hseen⟩ := h.visited
  rw [hnext, List.append_nil] at hchildren
  rw [hchildren]
  exact hseen

theorem Segment.merge {p f : StackElement NodeRef} {k k' hi : Nat}
    (hp : Segment children num p k' k) (hf : Segment children num f k hi)
    (honly : ∀ x, num x = some k → x = f.Node) (hedge : Edge children p.Node f.Node)
    (hnext : f.NextChild = []) (hmin : f.MinVisited < k) (hle : p.MinVisited ≤ f.MinVisited) :
    Segment children num p k' hi where
  number := hp.number
  lt := Nat.lt_trans hp.lt hf.lt
  visited := hp.visited
  min_le := hp.min_le
  low := hp.low
  tree := by
    intro x j hx hk hj
    by_cases hlt : j < k
    · exact hp.tree x j hx hk hlt
    · exact ReflTransGen.head hedge (hf.tree x j hx (Nat.not_lt.mp hlt) hj)
  edges := by
    intro x j hx hk hj w hw
    rcases Nat.lt_trichotomy j k with hlt | heq | hgt
    · exact hp.edges x j hx hk hlt w hw
    · rw [honly x (heq ▸ hx)] at hw
      obtain ⟨i, hi, hmin'⟩ := hf.visited_all hnext w hw
      exact ⟨i, hi, Nat.le_trans hle hmin'⟩
    · obtain ⟨i, hi, hmin'⟩ := hf.edges x j hx hgt hj w hw
      exact ⟨i, hi, Nat.le_trans hle hmin'⟩
  uplink := by
    intro x j hx hk hj
    rcases Nat.lt_trichotomy j k with hlt | heq | hgt
    · exact hp.uplink x j hx hk hlt
    · obtain ⟨y, hy, hreach⟩ := hf.low
      rw [honly x (heq ▸ hx)]
      exact ⟨y, _, hy, heq ▸ hmin, hreach⟩
    · exact hf.uplink x j hx hgt hj

theorem Frames.merge {f : StackElement NodeRef} {below : List (StackElement NodeRef)} {k hi : Nat}
    (hf : Segment children num f k hi) (hbelow : Frames children num k below)
    (hparent : ∀ p ∈ below.head?, Edge children p.Node f.Node)
    (honly : ∀ x, num x = some k → x = f.Node) (hnext : f.NextChild = [])
    (hmin : f.MinVisited < k) : Frames children num hi (propagate f.MinVisited below) := by
  cases hbelow with
  | nil hnone =>
    obtain ⟨y, hy, _⟩ := hf.low
    exact absurd (hnone y _ hy) (Nat.not_le.mpr hmin)
  | @cons _ k' p rest seg parent rest' =>
    have hedge : Edge children p.Node f.Node := hparent p rfl
    rw [propagate]
    by_cases hlt : f.MinVisited < p.MinVisited
    · rw [if_pos hlt]
      obtain ⟨y, hy, hreach⟩ := hf.low
      have hlower := seg.lower (Nat.le_of_lt hlt) ⟨y, hy, ReflTransGen.head hedge hreach⟩
      exact .cons (hlower.merge hf honly hedge hnext hmin (Nat.le_refl _)) parent rest'
    · rw [if_neg hlt]
      exact .cons (seg.merge hf honly hedge hnext hmin (Nat.not_lt.mp hlt)) parent rest'

theorem Frames.propagate_eq {below : List (StackElement NodeRef)} {k : Nat}
    (h : Frames children num k below) : propagate k below = below := by
  cases h with
  | nil _ => rfl
  | cons seg _ _ =>
    rw [propagate, if_neg (Nat.not_lt.mpr (Nat.le_of_lt (Nat.lt_of_le_of_lt seg.min_le seg.lt)))]

theorem Frames.widen {k hi : Nat} (h : Frames children num k V) (hle : k ≤ hi)
    (hnone : ∀ x j, num x = some j → k ≤ j → hi ≤ j) : Frames children num hi V := by
  have hlt : ∀ x j, num x = some j → j < hi → j < k := by
    intro x j hx hj
    by_contra hge
    exact absurd (hnone x j hx (Nat.not_lt.mp hge)) (Nat.not_le.mpr hj)
  cases h with
  | nil h => exact .nil fun x j hx => hnone x j hx (h x j hx)
  | cons seg parent rest =>
    refine .cons ?_ parent rest
    exact ⟨seg.number, Nat.lt_of_lt_of_le seg.lt hle, seg.visited, seg.min_le, seg.low,
      fun x j hx hk hj => seg.tree x j hx hk (hlt x j hx hj),
      fun x j hx hk hj => seg.edges x j hx hk (hlt x j hx hj),
      fun x j hx hk hj => seg.uplink x j hx hk (hlt x j hx hj)⟩

section Root

variable {f : StackElement NodeRef} {k hi : Nat} {cs : List (List NodeRef)}

theorem Segment.root_edges (hf : Segment children num f k hi) (hnext : f.NextChild = [])
    (hmin : f.MinVisited = k) (honly : ∀ x, num x = some k → x = f.Node) {x : NodeRef}
    (hx : num x = some j) (hk : k ≤ j) (hj : j < hi) :
    ∀ w ∈ children x, ∃ i, num w = some i ∧ k ≤ i := by
  intro w hw
  rw [← hmin]
  rcases Nat.eq_or_lt_of_le hk with heq | hlt
  · rw [honly x (heq ▸ hx)] at hw
    exact hf.visited_all hnext w hw
  · exact hf.edges x j hx hlt hj w hw

theorem Segment.root_reach (hf : Segment children num f k hi) (hnext : f.NextChild = [])
    (hmin : f.MinVisited = k) (honly : ∀ x, num x = some k → x = f.Node)
    (hfound : ∀ x j, num x = some j → hi ≤ j → ∀ w ∈ children x, ∃ i, num w = some i ∧ k ≤ i)
    {x : NodeRef} (hx : num x = some j) (hk : k ≤ j) (hj : j < hi) :
    Reaches children x f.Node := by
  have hclosed : ∀ a, (∃ i, num a = some i ∧ k ≤ i) → ∀ b, Edge children a b →
      ∃ i, num b = some i ∧ k ≤ i := by
    rintro a ⟨i, ha, hi'⟩ b hab
    by_cases hlt : i < hi
    · exact hf.root_edges hnext hmin honly ha hi' hlt b hab
    · exact hfound a i ha (Nat.not_lt.mp hlt) b hab
  induction j using Nat.strongRecOn generalizing x with
  | ind j ih =>
    rcases Nat.eq_or_lt_of_le hk with heq | hlt
    · rw [honly x (heq ▸ hx)]
      exact ReflTransGen.refl
    · obtain ⟨y, i, hy, hlt', hreach⟩ := hf.uplink x j hx hlt hj
      obtain ⟨i', hi', hk'⟩ := closed_reach hclosed ⟨j, hx, hk⟩ hreach
      rw [hy, Option.some.injEq] at hi'
      exact hreach.trans (ih i hlt' hy (hi' ▸ hk') (Nat.lt_trans hlt' hj))

end Root

/-! ## Turns of the search -/

section Turns

variable {entryN : NodeRef} {nodes : Finset NodeRef} {cs : List (List NodeRef)}
  {s : SCCIterator NodeRef}

/-- The nodes that the entry reaches; there are numbers for all of them. -/
structure Covers (children : NodeRef → List NodeRef) (entryN : NodeRef)
    (nodes : Finset NodeRef) : Prop where
  mem : ∀ n, n ∈ nodes ↔ Reaches children entryN n
  card_lt : nodes.card < allOnes

theorem Numbering.visitNum_le (h : Numbering children entryN nodes cs s) :
    s.visitNum ≤ nodes.card := by
  rw [h.count]
  exact Finset.card_filter_le _ _

theorem Numbering.visitNum_lt (hc : Covers children entryN nodes)
    (h : Numbering children entryN nodes cs s) {N : NodeRef} (hN : s.nodeVisitNumbers N = none)
    (hreach : Reaches children entryN N) : s.visitNum < nodes.card := by
  rw [h.count]
  refine Finset.card_lt_card ?_
  rw [Finset.filter_ssubset]
  refine ⟨N, (hc.mem N).mpr hreach, ?_⟩
  rw [hN]
  exact Bool.false_ne_true

variable [DecidableEq NodeRef]

theorem Numbering.dfsVisitOne (hc : Covers children entryN nodes)
    (h : Numbering children entryN nodes cs s) {N : NodeRef} (hN : s.nodeVisitNumbers N = none)
    (hreach : Reaches children entryN N) (hentry : N = entryN ∨ s.nodeVisitNumbers entryN ≠ none)
    (hparent : ∀ p ∈ V.head?, Edge children p.Node N)
    (hV : Frames children (Function.update s.nodeVisitNumbers N (some (s.visitNum + 1)))
      (s.visitNum + 1) V) :
    Invariant children entryN nodes cs (dfsVisitOne children N { s with VisitStack := V }) := by
  have hlt := h.visitNum_lt hc hN hreach
  have hcard := hc.card_lt
  have hones : allOnes < 2 ^ 32 := by decide
  have hnum : (s.visitNum + 1) % 2 ^ 32 = s.visitNum + 1 := Nat.mod_eq_of_lt (by omega)
  have hself : Function.update s.nodeVisitNumbers N (some (s.visitNum + 1)) N =
      some (s.visitNum + 1) := Function.update_self ..
  have hother : ∀ x, x ≠ N → Function.update s.nodeVisitNumbers N (some (s.visitNum + 1)) x =
      s.nodeVisitNumbers x := fun x hx => Function.update_of_ne hx ..
  unfold SCCIterator.dfsVisitOne
  dsimp only
  rw [hnum]
  generalize Function.update s.nodeVisitNumbers N (some (s.visitNum + 1)) = num' at *
  have hold : ∀ x j, s.nodeVisitNumbers x = some j →
      num' x = some j := by
    intro x j hx
    rw [hother x, hx]
    rintro rfl
    rw [hN] at hx
    cases hx
  -- a number is the new one, of the new node, or an old one
  have hcases : ∀ x j, num' x = some j →
      x = N ∧ j = s.visitNum + 1 ∨ s.nodeVisitNumbers x = some j := by
    intro x j hx
    by_cases hxN : x = N
    · rw [hxN, hself, Option.some.injEq] at hx
      exact Or.inl ⟨hxN, hx.symm⟩
    · rw [hother x hxN] at hx
      exact Or.inr hx
  have honly : ∀ x, num' x =
      some (s.visitNum + 1) → x = N := by
    intro x hx
    rcases hcases x _ hx with hx | hx
    · exact hx.1
    · rcases h.numbers x _ hx with hj | hj
      · omega
      · omega
  refine ⟨⟨?_, ?_, ?_, ?_, ?_, ?_, ?_, h.enumeration⟩, .cons (.single hself honly) hparent hV, ?_⟩
  · have hinsert : (nodes.filter fun x => (num' x).isSome) =
        insert N (nodes.filter fun x => (s.nodeVisitNumbers x).isSome) := by
      ext x
      by_cases hxN : x = N
      · simp [hxN, hself, (hc.mem N).mpr hreach]
      · simp [hxN, hother x hxN]
    rw [hinsert, Finset.card_insert_of_notMem, ← h.count]
    simp [hN]
  · intro x j hx
    rcases hcases x j hx with hx | hx
    · exact hx.1 ▸ hreach
    · exact h.reach x j hx
  · intro x j hx
    rcases hcases x j hx with hx | hx
    · exact Or.inl (Nat.le_of_eq hx.2)
    · rcases h.numbers x j hx with hj | hj
      · exact Or.inl (Nat.le_succ_of_le hj)
      · exact Or.inr hj
  · intro x y j hx hy hj
    change j ≤ s.visitNum + 1 at hj
    rcases hcases x j hx with hx' | hx'
    · rw [hx'.2] at hy
      rw [hx'.1, honly y hy]
    · rcases hcases y j hy with hy' | hy'
      · rw [hy'.2] at hx
        rw [hy'.1, honly x hx]
      · refine h.inj x y j hx' hy' ?_
        rcases h.numbers x j hx' with hle | heq
        · exact hle
        · omega
  · intro x
    change x ∈ N :: s.SCCNodeStack ↔ ∃ j, num' x = some j ∧ j ≤ s.visitNum + 1
    rw [List.mem_cons, h.stack_mem x]
    constructor
    · intro hx
      rcases hx with hx | ⟨j, hx, hj⟩
      · exact ⟨_, hx ▸ hself, Nat.le_refl _⟩
      · exact ⟨j, hold x j hx, Nat.le_succ_of_le hj⟩
    · intro hx
      obtain ⟨j, hx, hj⟩ := hx
      rcases hcases x j hx with hx' | hx'
      · exact Or.inl hx'.1
      · refine Or.inr ⟨j, hx', ?_⟩
        rcases h.numbers x j hx' with hle | heq
        · exact hle
        · omega
  · refine List.Pairwise.cons ?_ ?_
    · intro y hy
      obtain ⟨j, hj, hle⟩ := (h.stack_mem y).mp hy
      exact ⟨_, j, hself, hold y j hj, Nat.lt_succ_of_le hle⟩
    · refine h.stack_order.imp ?_
      rintro x y ⟨i, j, hx, hy, hlt⟩
      exact ⟨i, j, hold x i hx, hold y j hy, hlt⟩
  · intro x
    rw [h.found x]
    constructor
    · exact hold x allOnes
    · intro hx
      rcases hcases x _ hx with hx' | hx'
      · omega
      · exact hx'
  · rcases hentry with heq | hne
    · rw [← heq]
      change num' _ ≠ _
      rw [hself]
      exact Option.some_ne_none _
    · obtain ⟨j, hj⟩ := Option.ne_none_iff_exists'.mp hne
      change num' _ ≠ _
      rw [hold _ j hj]
      exact Option.some_ne_none _

omit [DecidableEq NodeRef] in
theorem Invariant.setStack (h : Invariant children entryN nodes cs s) {C : List NodeRef}
    (hV : Frames children s.nodeVisitNumbers (s.visitNum + 1) V) :
    Invariant children entryN nodes cs { s with VisitStack := V, CurrentSCC := C } :=
  ⟨⟨h.count, h.reach, h.numbers, h.inj, h.stack_mem, h.stack_order, h.found, h.enumeration⟩, hV,
    h.entry⟩

/-- Frames on the stack and nodes without a number. -/
def pending (nodes : Finset NodeRef) (s : SCCIterator NodeRef) : Nat :=
  s.VisitStack.length + (nodes.card - s.visitNum)

/-- Children that the last frame has to look at. -/
def childrenLeft (s : SCCIterator NodeRef) : Nat :=
  match s.VisitStack with
  | [] => 0
  | top :: _ => top.NextChild.length

/-- An unseen node counts for more than any list of children. -/
def edgesLeft (nodes : Finset NodeRef) (degree : Nat) (s : SCCIterator NodeRef) : Nat :=
  (nodes.card - s.visitNum) * (degree + 1) + childrenLeft s

/-- What `DFSVisitChildren` keeps. -/
structure Visiting (children : NodeRef → List NodeRef) (entryN : NodeRef) (nodes : Finset NodeRef)
    (cs : List (List NodeRef)) (frames : Nat) (s : SCCIterator NodeRef) : Prop where
  inv : Invariant children entryN nodes cs s
  ne_nil : s.VisitStack ≠ []
  pending : pending nodes s = frames
  current : s.CurrentSCC = []

theorem Visiting.unseen (hc : Covers children entryN nodes) {degree frames : Nat}
    (hdegree : ∀ n ∈ nodes, (children n).length ≤ degree)
    (h : Visiting children entryN nodes cs frames s) {top : StackElement NodeRef}
    {below : List (StackElement NodeRef)} (hV : s.VisitStack = top :: below) {childN : NodeRef}
    {rest : List NodeRef} (hnext : top.NextChild = childN :: rest)
    (hchild : s.nodeVisitNumbers childN = none) :
    let s' := dfsVisitOne children childN
      { s with VisitStack := { top with NextChild := rest } :: below }
    Visiting children entryN nodes cs frames s' ∧
      edgesLeft nodes degree s' < edgesLeft nodes degree s := by
  have hinv := h.inv
  have hframes := hinv.frames
  rw [hV] at hframes
  cases hframes with
  | @cons _ k _ _ seg parent rest' =>
    have hedge := seg.next_edge hnext
    have hreach : Reaches children entryN childN :=
      (hinv.reach _ _ seg.number).tail hedge
    have hlt := hinv.visitNum_lt hc hchild hreach
    have hcard := hc.card_lt
    have hones : allOnes < 2 ^ 32 := by decide
    have hnum : (s.visitNum + 1) % 2 ^ 32 = s.visitNum + 1 := Nat.mod_eq_of_lt (by omega)
    have habove : Above s.nodeVisitNumbers
        (Function.update s.nodeVisitNumbers childN (some (s.visitNum + 1))) (s.visitNum + 1) := by
      refine ⟨?_, ?_⟩
      · intro x j hj
        by_cases hx : x = childN
        · rw [hx, Function.update_self, hchild, Option.some.injEq]
          exact ⟨fun h => absurd h (Nat.ne_of_gt hj), fun h => nomatch h⟩
        · rw [Function.update_of_ne hx]
      · intro x j hx hj
        refine ⟨j, ?_, hj⟩
        rw [Function.update_of_ne, hx]
        rintro rfl
        rw [hchild] at hx
        cases hx
    have hconsume := (seg.frame habove).consume hnext
      ⟨s.visitNum + 1, Function.update_self .., Nat.le_trans seg.min_le (Nat.le_of_lt seg.lt)⟩
    have hframes' := Frames.cons hconsume parent
      (rest'.frame (habove.mono (Nat.le_of_lt seg.lt)))
    have hdeg := hdegree childN ((hc.mem childN).mpr hreach)
    refine ⟨⟨?_, List.cons_ne_nil _ _, ?_, h.current⟩, ?_⟩
    · refine hinv.dfsVisitOne hc hchild hreach (Or.inr hinv.entry) ?_ hframes'
      intro p hp
      cases hp
      exact hedge
    · have hpending := h.pending
      unfold SCCIterator.pending at hpending ⊢
      rw [hV, List.length_cons] at hpending
      change (below.length + 1 + 1) + (nodes.card - (s.visitNum + 1) % 2 ^ 32) = frames
      omega
    · have hunseen : nodes.card - s.visitNum = nodes.card - (s.visitNum + 1) + 1 := by omega
      unfold edgesLeft
      change (nodes.card - (s.visitNum + 1) % 2 ^ 32) * (degree + 1) + (children childN).length < _
      rw [hnum, hunseen, Nat.succ_mul]
      omega

omit [DecidableEq NodeRef] in
theorem Visiting.seen {degree frames : Nat} (h : Visiting children entryN nodes cs frames s)
    {top : StackElement NodeRef} {below : List (StackElement NodeRef)}
    (hV : s.VisitStack = top :: below) {childN : NodeRef} {rest : List NodeRef}
    (hnext : top.NextChild = childN :: rest) {childNum : Nat}
    (hchild : s.nodeVisitNumbers childN = some childNum) :
    let m := if childNum < top.MinVisited then childNum else top.MinVisited
    let s' := { s with VisitStack := { top with NextChild := rest, MinVisited := m } :: below }
    Visiting children entryN nodes cs frames s' ∧
      edgesLeft nodes degree s' < edgesLeft nodes degree s := by
  have hinv := h.inv
  have hframes := hinv.frames
  rw [hV] at hframes
  intro m s'
  cases hframes with
  | @cons _ k _ _ seg parent rest' =>
    have hedge := seg.next_edge hnext
    have hseg : Segment children s.nodeVisitNumbers
        { top with NextChild := rest, MinVisited := m } k (s.visitNum + 1) := by
      by_cases hlt : childNum < top.MinVisited
      · have hm : m = childNum := if_pos hlt
        have hlower := seg.lower (Nat.le_of_lt hlt) ⟨childN, hchild, ReflTransGen.single hedge⟩
        rw [hm]
        exact hlower.consume hnext ⟨childNum, hchild, Nat.le_refl _⟩
      · have hm : m = top.MinVisited := if_neg hlt
        rw [hm]
        exact seg.consume hnext ⟨childNum, hchild, Nat.not_lt.mp hlt⟩
    refine ⟨⟨hinv.setStack (.cons hseg parent rest'), List.cons_ne_nil _ _, ?_, h.current⟩, ?_⟩
    · rw [← h.pending]
      unfold SCCIterator.pending
      rw [hV]
      rfl
    · unfold edgesLeft childrenLeft
      rw [hV]
      dsimp only
      rw [hnext, List.length_cons]
      exact Nat.lt_succ_self _

theorem dfsVisitChild_spec (hc : Covers children entryN nodes) {degree frames : Nat}
    (hdegree : ∀ n ∈ nodes, (children n).length ≤ degree)
    (h : Visiting children entryN nodes cs frames s) :
    ∃ t, dfsVisitChild children s = some t ∧
      t.Sat (fun s' => Visiting children entryN nodes cs frames s' ∧
          edgesLeft nodes degree s' < edgesLeft nodes degree s)
        (fun r => Visiting children entryN nodes cs frames r ∧ childrenLeft r = 0) := by
  unfold dfsVisitChild
  cases hV : s.VisitStack with
  | nil => exact absurd hV h.ne_nil
  | cons top below =>
    dsimp only
    cases hnext : top.NextChild with
    | nil =>
      refine ⟨_, rfl, h, ?_⟩
      unfold childrenLeft
      rw [hV]
      dsimp only
      rw [hnext]
      rfl
    | cons childN rest =>
      dsimp only
      cases hchild : s.nodeVisitNumbers childN with
      | none => exact ⟨_, rfl, h.unseen hc hdegree hV hnext hchild⟩
      | some childNum => exact ⟨_, rfl, h.seen hV hnext hchild⟩

theorem dfsVisitChildren_spec (hc : Covers children entryN nodes) {degree frames : Nat}
    (hdegree : ∀ n ∈ nodes, (children n).length ≤ degree)
    (h : Visiting children entryN nodes cs frames s) :
    ∃ r, (∀ fuel, (nodes.card + 1) * (degree + 1) ≤ fuel →
        dfsVisitChildren children fuel s = some r) ∧
      Visiting children entryN nodes cs frames r ∧ childrenLeft r = 0 := by
  obtain ⟨r, hrun, hpost⟩ := loop_rule (fun _ => dfsVisitChild children) 0
    (edgesLeft nodes degree) (fun s hs => by
      obtain ⟨t, ht, hsat⟩ := dfsVisitChild_spec hc hdegree hs
      exact ⟨t, fun _ _ => ht, hsat⟩) h
  refine ⟨r, ?_, hpost⟩
  intro fuel hfuel
  have hleft : childrenLeft s ≤ degree := by
    have hframes := h.inv.frames
    unfold childrenLeft
    cases hV : s.VisitStack with
    | nil => exact absurd hV h.ne_nil
    | cons top below =>
      rw [hV] at hframes
      cases hframes with
      | cons seg _ _ =>
        obtain ⟨seen, hchildren, _⟩ := seg.visited
        have hdeg := hdegree _ ((hc.mem _).mpr (h.inv.reach _ _ seg.number))
        rw [hchildren, List.length_append] at hdeg
        dsimp only
        omega
  have hmul : (nodes.card - s.visitNum) * (degree + 1) ≤ nodes.card * (degree + 1) :=
    Nat.mul_le_mul_right _ (Nat.sub_le _ _)
  have hlt : edgesLeft nodes degree s < fuel := by
    unfold edgesLeft
    rw [Nat.succ_mul] at hfuel
    omega
  unfold dfsVisitChildren
  have hne : (!s.VisitStack.isEmpty) = true := by
    cases hV : s.VisitStack with
    | nil => exact absurd hV h.ne_nil
    | cons top below => rfl
  rw [guard, if_pos hne]
  exact hrun fuel (by omega) fuel hlt

/-- The numbers once the nodes of a component are marked as found. -/
def mark (C : List NodeRef) (num : NodeRef → Option Nat) : NodeRef → Option Nat := fun x =>
  if x ∈ C then some allOnes else num x

theorem mark_eq_some {C : List NodeRef} {x : NodeRef} :
    mark C num x = some j ↔ (x ∈ C ∧ j = allOnes) ∨ (x ∉ C ∧ num x = some j) := by
  unfold mark
  by_cases hx : x ∈ C
  · rw [if_pos hx, Option.some.injEq, eq_comm]
    simp [hx]
  · rw [if_neg hx]
    simp [hx]

theorem above_mark {C : List NodeRef} {k : Nat} (hk : k ≤ allOnes)
    (hC : ∀ x ∈ C, ∃ j, num x = some j ∧ k ≤ j) : Above num (mark C num) k := by
  refine ⟨?_, ?_⟩
  · intro x j hj
    rw [mark_eq_some]
    constructor
    · intro hx
      rcases hx with ⟨_, hj'⟩ | ⟨_, hx⟩
      · omega
      · exact hx
    · intro hx
      refine Or.inr ⟨?_, hx⟩
      intro hxC
      obtain ⟨i, hi, hki⟩ := hC x hxC
      rw [hx, Option.some.injEq] at hi
      omega
  · intro x j hx hj
    by_cases hxC : x ∈ C
    · exact ⟨allOnes, mark_eq_some.mpr (Or.inl ⟨hxC, rfl⟩), hk⟩
    · exact ⟨j, mark_eq_some.mpr (Or.inr ⟨hxC, hx⟩), hj⟩

theorem popSCC_append {N : NodeRef} {T rest : List NodeRef} (hT : N ∉ T)
    (s : SCCIterator NodeRef) : popSCC N (T ++ N :: rest) s = some { s with
      CurrentSCC := s.CurrentSCC ++ (T ++ [N])
      SCCNodeStack := rest
      nodeVisitNumbers := mark (T ++ [N]) s.nodeVisitNumbers } := by
  induction T generalizing s with
  | nil =>
    rw [List.nil_append, popSCC, if_pos rfl, List.nil_append]
    congr 2
    funext x
    unfold mark
    by_cases hx : x = N
    · rw [hx, Function.update_self, if_pos List.mem_cons_self]
    · rw [Function.update_of_ne hx, if_neg (by rwa [List.mem_singleton])]
  | cons a T ih =>
    rw [List.mem_cons, not_or] at hT
    rw [List.cons_append, popSCC, if_neg (Ne.symm hT.1), ih hT.2, List.cons_append]
    congr 2
    · funext x
      unfold mark
      dsimp only
      by_cases hx : x ∈ T ++ [N]
      · rw [if_pos hx, if_pos (List.mem_cons_of_mem a hx)]
      · rw [if_neg hx]
        by_cases hxa : x = a
        · rw [hxa, Function.update_self, if_pos List.mem_cons_self]
        · rw [Function.update_of_ne hxa, if_neg]
          rw [List.mem_cons, not_or]
          exact ⟨hxa, hx⟩
    · dsimp only
      rw [List.append_assoc, List.singleton_append]

theorem Numbering.split_stack (h : Numbering children entryN nodes cs s) {N : NodeRef} {k : Nat}
    (hN : s.nodeVisitNumbers N = some k) (hk : k ≤ s.visitNum) :
    ∃ T rest, s.SCCNodeStack = T ++ N :: rest ∧ N ∉ T ∧ (T ++ [N]).Nodup ∧
      (∀ x, x ∈ T ++ [N] ↔
        ∃ j, s.nodeVisitNumbers x = some j ∧ k ≤ j ∧ j < s.visitNum + 1) ∧
      (∀ x, x ∈ rest ↔ ∃ j, s.nodeVisitNumbers x = some j ∧ j < k) := by
  obtain ⟨T, rest, hstack, hT⟩ :=
    List.eq_append_cons_of_mem ((h.stack_mem N).mpr ⟨k, hN, hk⟩)
  have horder := h.stack_order
  have hnodup : s.SCCNodeStack.Nodup := horder.imp (by
    rintro x y ⟨i, j, hx, hy, hlt⟩ rfl
    rw [hx, Option.some.injEq] at hy
    omega)
  rw [hstack] at horder
  rw [List.pairwise_append, List.pairwise_cons] at horder
  obtain ⟨_, ⟨hbelow, _⟩, habove⟩ := horder
  have hge : ∀ x ∈ T ++ [N], ∃ j, s.nodeVisitNumbers x = some j ∧ k ≤ j := by
    intro x hx
    rcases List.mem_append.mp hx with hx | hx
    · obtain ⟨i, j, hxi, hj, hlt⟩ := habove x hx N List.mem_cons_self
      rw [hN, Option.some.injEq] at hj
      exact ⟨i, hxi, by omega⟩
    · rw [List.mem_singleton.mp hx]
      exact ⟨k, hN, Nat.le_refl k⟩
  have hlt : ∀ x ∈ rest, ∃ j, s.nodeVisitNumbers x = some j ∧ j < k := by
    intro x hx
    obtain ⟨i, j, hi, hj, hlt⟩ := hbelow x hx
    rw [hN, Option.some.injEq] at hi
    exact ⟨j, hj, by omega⟩
  have hmem : ∀ x, x ∈ s.SCCNodeStack ↔ x ∈ T ++ [N] ∨ x ∈ rest := by
    intro x
    rw [hstack, List.append_cons, List.mem_append]
  refine ⟨T, rest, hstack, hT, ?_, ?_, ?_⟩
  · rw [hstack, List.append_cons] at hnodup
    exact (List.nodup_append.mp hnodup).1
  · intro x
    constructor
    · intro hx
      obtain ⟨j, hj, hkj⟩ := hge x hx
      obtain ⟨i, hi, hle⟩ := (h.stack_mem x).mp ((hmem x).mpr (Or.inl hx))
      rw [hj, Option.some.injEq] at hi
      exact ⟨j, hj, hkj, by omega⟩
    · intro hx
      obtain ⟨j, hj, hkj, hle⟩ := hx
      rcases (hmem x).mp ((h.stack_mem x).mpr ⟨j, hj, by omega⟩) with hx | hx
      · exact hx
      · obtain ⟨i, hi, hik⟩ := hlt x hx
        rw [hj, Option.some.injEq] at hi
        omega
  · intro x
    constructor
    · exact hlt x
    · intro hx
      obtain ⟨j, hj, hjk⟩ := hx
      rcases (hmem x).mp ((h.stack_mem x).mpr ⟨j, hj, by omega⟩) with hx | hx
      · obtain ⟨i, hi, hik⟩ := hge x hx
        rw [hj, Option.some.injEq] at hi
        omega
      · exact hx

theorem Invariant.popSCC (hc : Covers children entryN nodes)
    (h : Invariant children entryN nodes cs s) {f : StackElement NodeRef}
    {below : List (StackElement NodeRef)} (hV : s.VisitStack = f :: below)
    (hnext : f.NextChild = []) (hmin : s.nodeVisitNumbers f.Node = some f.MinVisited)
    (hcurrent : s.CurrentSCC = []) :
    ∃ r, popSCC f.Node s.SCCNodeStack { s with VisitStack := propagate f.MinVisited below } =
        some r ∧
      r.CurrentSCC ≠ [] ∧ r.VisitStack.length = below.length ∧ r.visitNum = s.visitNum ∧
      Invariant children entryN nodes (cs ++ [r.CurrentSCC]) r := by
  have hframes := h.frames
  have hle := h.visitNum_le
  have hcard := hc.card_lt
  rw [hV] at hframes
  cases hframes with
  | @cons _ k _ _ seg parent rest' =>
    have hk : f.MinVisited = k := by
      have hnumber := seg.number
      rw [hmin, Option.some.injEq] at hnumber
      exact hnumber
    have hlt := seg.lt
    have honly : ∀ x, s.nodeVisitNumbers x = some k → x = f.Node := fun x hx =>
      h.inj x f.Node k hx seg.number (by omega)
    obtain ⟨T, rest, hstack, hT, hnodup, hmemC, hmemRest⟩ :=
      h.split_stack seg.number (by omega)
    rw [hk, rest'.propagate_eq, hstack, popSCC_append hT]
    rw [hcurrent, List.nil_append]
    generalize hC : T ++ [f.Node] = C at hnodup hmemC ⊢
    have hroot : f.Node ∈ C := (hmemC _).mpr ⟨k, seg.number, Nat.le_refl k, hlt⟩
    have hones : ∀ x j, s.nodeVisitNumbers x = some j → s.visitNum + 1 ≤ j → x ∈ cs.flatten := by
      intro x j hx hj
      rw [h.found x, hx]
      rcases h.numbers x j hx with hj' | hj'
      · omega
      · rw [hj']
    have hfound : ∀ x j, s.nodeVisitNumbers x = some j → s.visitNum + 1 ≤ j →
        ∀ w ∈ children x, ∃ i, s.nodeVisitNumbers w = some i ∧ k ≤ i := by
      intro x j hx hj w hw
      have hw' := h.enumeration.closed x (hones x j hx hj) w hw
      exact ⟨allOnes, (h.found w).mp hw', by omega⟩
    have hnew : ∀ x ∈ C, x ∉ cs.flatten := by
      intro x hx
      obtain ⟨j, hj, _, hj'⟩ := (hmemC x).mp hx
      rw [h.found x, hj, Option.some.injEq]
      omega
    have habove : Above s.nodeVisitNumbers (mark C s.nodeVisitNumbers) k := by
      refine above_mark (by omega) fun x hx => ?_
      obtain ⟨j, hj, hkj, _⟩ := (hmemC x).mp hx
      exact ⟨j, hj, hkj⟩
    have hmem_of_ge : ∀ x j, s.nodeVisitNumbers x = some j → k ≤ j → j ≤ s.visitNum → x ∈ C :=
      fun x j hx hkj hj => (hmemC x).mpr ⟨j, hx, hkj, Nat.lt_succ_of_le hj⟩
    refine ⟨_, rfl, List.ne_nil_of_mem hroot, rfl, rfl, ?_⟩
    refine ⟨⟨?_, ?_, ?_, ?_, ?_, ?_, ?_, ?_⟩, ?_, ?_⟩
    · change s.visitNum = _
      rw [h.count]
      congr 1
      refine Finset.filter_congr fun x _ => ?_
      change _ ↔ (mark C s.nodeVisitNumbers x).isSome = true
      unfold mark
      by_cases hx : x ∈ C
      · obtain ⟨j, hj, _⟩ := (hmemC x).mp hx
        rw [if_pos hx, hj]
        exact Iff.rfl
      · rw [if_neg hx]
    · intro x j hx
      rcases mark_eq_some.mp hx with ⟨hxC, _⟩ | ⟨_, hx⟩
      · obtain ⟨i, hi, _⟩ := (hmemC x).mp hxC
        exact h.reach x i hi
      · exact h.reach x j hx
    · intro x j hx
      rcases mark_eq_some.mp hx with ⟨_, hj⟩ | ⟨_, hx⟩
      · exact Or.inr hj
      · exact h.numbers x j hx
    · intro x y j hx hy hj
      change j ≤ s.visitNum at hj
      rcases mark_eq_some.mp hx with ⟨_, hj'⟩ | ⟨_, hx⟩
      · omega
      · rcases mark_eq_some.mp hy with ⟨_, hj'⟩ | ⟨_, hy⟩
        · omega
        · exact h.inj x y j hx hy hj
    · intro x
      change x ∈ rest ↔ ∃ j, mark C s.nodeVisitNumbers x = some j ∧ j ≤ s.visitNum
      rw [hmemRest x]
      constructor
      · intro hx
        obtain ⟨j, hj, hjk⟩ := hx
        exact ⟨j, (habove.below x j hjk).mpr hj, by omega⟩
      · intro hx
        obtain ⟨j, hj, hle'⟩ := hx
        rcases mark_eq_some.mp hj with ⟨_, hj'⟩ | ⟨hxC, hx⟩
        · omega
        · refine ⟨j, hx, ?_⟩
          by_contra hkj
          exact hxC (hmem_of_ge x j hx (by omega) hle')
    · have horder := h.stack_order
      rw [hstack, List.pairwise_append, List.pairwise_cons] at horder
      refine horder.2.1.2.imp_of_mem ?_
      intro x y hx hy hxy
      obtain ⟨i, j, hi, hj, hij⟩ := hxy
      obtain ⟨i', hi', hik⟩ := (hmemRest x).mp hx
      rw [hi, Option.some.injEq] at hi'
      exact ⟨i, j, (habove.below x i (by omega)).mpr hi, (habove.below y j (by omega)).mpr hj, hij⟩
    · intro x
      rw [List.flatten_append, List.flatten_singleton, List.mem_append, mark_eq_some, h.found x]
      constructor
      · intro hx
        by_cases hxC : x ∈ C
        · exact Or.inl ⟨hxC, rfl⟩
        · exact Or.inr ⟨hxC, hx.resolve_right hxC⟩
      · intro hx
        rcases hx with hx | hx
        · exact Or.inr hx.1
        · exact Or.inl hx.2
    · refine h.enumeration.snoc hroot hnodup hnew ?_ ?_ ?_
      · intro x hx
        obtain ⟨j, hj, hkj, hj'⟩ := (hmemC x).mp hx
        exact seg.tree x j hj hkj hj'
      · intro x hx
        obtain ⟨j, hj, hkj, hj'⟩ := (hmemC x).mp hx
        exact seg.root_reach hnext hk honly hfound hj hkj hj'
      · intro x hx w hw
        obtain ⟨j, hj, hkj, hj'⟩ := (hmemC x).mp hx
        obtain ⟨i, hi, hki⟩ := seg.root_edges hnext hk honly hj hkj hj' w hw
        by_cases hlt' : i < s.visitNum + 1
        · exact Or.inl ((hmemC w).mpr ⟨i, hi, hki, hlt'⟩)
        · exact Or.inr (hones w i hi (Nat.not_lt.mp hlt'))
    · refine (rest'.frame habove).widen (Nat.le_of_lt hlt) ?_
      intro x j hx hkj
      change s.visitNum + 1 ≤ j
      rcases mark_eq_some.mp hx with ⟨_, hj⟩ | ⟨hxC, hx⟩
      · omega
      · by_contra hj
        exact hxC (hmem_of_ge x j hx hkj (by omega))
    · change mark C s.nodeVisitNumbers entryN ≠ none
      unfold mark
      by_cases hx : entryN ∈ C
      · rw [if_pos hx]
        exact Option.some_ne_none _
      · rw [if_neg hx]
        exact h.entry

/-- Between two frames of a search for the next component. -/
structure Searching (children : NodeRef → List NodeRef) (entryN : NodeRef) (nodes : Finset NodeRef)
    (cs : List (List NodeRef)) (frames : Nat) (s : SCCIterator NodeRef) : Prop where
  inv : Invariant children entryN nodes cs s
  current : s.CurrentSCC = []
  pending_le : pending nodes s ≤ frames

/-- The search ends with the next component, or with an empty stack. -/
def Found (children : NodeRef → List NodeRef) (entryN : NodeRef) (nodes : Finset NodeRef)
    (cs : List (List NodeRef)) (frames : Nat) (r : SCCIterator NodeRef) : Prop :=
  (r.VisitStack = [] ∧ Searching children entryN nodes cs frames r) ∨
    (r.CurrentSCC ≠ [] ∧ Invariant children entryN nodes (cs ++ [r.CurrentSCC]) r ∧
      pending nodes r < frames)

omit [DecidableEq NodeRef] in
theorem propagate_length (m : Nat) (V : List (StackElement NodeRef)) :
    (propagate m V).length = V.length := by
  cases V with
  | nil => rfl
  | cons p rest => rfl

theorem popFrame_spec (hc : Covers children entryN nodes) {degree frames : Nat}
    (hdegree : ∀ n ∈ nodes, (children n).length ≤ degree)
    (h : Searching children entryN nodes cs frames s) :
    ∃ t, (∀ fuel, (nodes.card + 1) * (degree + 1) ≤ fuel → popFrame children fuel s = some t) ∧
      t.Sat (fun s' => Searching children entryN nodes cs frames s' ∧
          pending nodes s' < pending nodes s)
        (Found children entryN nodes cs frames) := by
  by_cases hV : s.VisitStack = []
  · refine ⟨.exit s, ?_, Or.inl ⟨hV, h⟩⟩
    intro fuel _
    unfold popFrame
    rw [if_pos (List.isEmpty_iff.mpr hV)]
  · obtain ⟨r, hrun, hvisiting, hleft⟩ :=
      dfsVisitChildren_spec hc hdegree ⟨h.inv, hV, rfl, h.current⟩
    have hle := h.pending_le
    have hpending := hvisiting.pending
    have hframes := hvisiting.inv.frames
    cases hVr : r.VisitStack with
    | nil => exact absurd hVr hvisiting.ne_nil
    | cons top below =>
      have hnext : top.NextChild = [] := by
        unfold childrenLeft at hleft
        rw [hVr] at hleft
        exact List.length_eq_zero_iff.mp hleft
      have hstart : ∀ fuel, (nodes.card + 1) * (degree + 1) ≤ fuel →
          popFrame children fuel s =
            if top.MinVisited ≠ (r.nodeVisitNumbers top.Node).getD 0 then
              some (.next { r with VisitStack := propagate top.MinVisited below })
            else (popSCC top.Node r.SCCNodeStack
              { r with VisitStack := propagate top.MinVisited below }).map .exit := by
        intro fuel hfuel
        unfold popFrame
        rw [if_neg (by rwa [List.isEmpty_iff]), hrun fuel hfuel]
        simp only [Option.bind_eq_bind, Option.bind_some, hVr, hnext, List.isEmpty_nil, guard,
          if_true]
        rfl
      unfold pending at hpending hle ⊢
      rw [hVr] at hframes hpending
      rw [List.length_cons] at hpending
      cases hframes with
      | @cons _ k _ _ seg parent rest' =>
        have honly : ∀ x, r.nodeVisitNumbers x = some k → x = top.Node := fun x hx =>
          hvisiting.inv.inj x top.Node k hx seg.number (Nat.le_of_lt_succ seg.lt)
        rw [seg.number, Option.getD_some] at hstart
        by_cases hmin : top.MinVisited = k
        · -- the node is the root of its component
          obtain ⟨r', hpop, hne, hlen, hnum, hinv⟩ := hvisiting.inv.popSCC hc hVr hnext
            (hmin ▸ seg.number) hvisiting.current
          refine ⟨.exit r', ?_, Or.inr ⟨hne, hinv, ?_⟩⟩
          · intro fuel hfuel
            rw [hstart fuel hfuel, if_neg (by rwa [not_not]), hpop]
            rfl
          · unfold pending
            rw [hlen, hnum]
            omega
        · have hmerge := Frames.merge seg rest' parent honly hnext
            (Nat.lt_of_le_of_ne seg.min_le hmin)
          refine ⟨_, fun fuel hfuel => (hstart fuel hfuel).trans (if_pos hmin), ?_⟩
          refine ⟨⟨hvisiting.inv.setStack hmerge, hvisiting.current, ?_⟩, ?_⟩
          · unfold pending
            change (propagate _ _).length + (nodes.card - r.visitNum) ≤ frames
            rw [propagate_length]
            omega
          · change (propagate _ _).length + (nodes.card - r.visitNum) < _
            rw [propagate_length]
            omega

theorem getNextSCC_spec (hc : Covers children entryN nodes) {degree : Nat}
    (hdegree : ∀ n ∈ nodes, (children n).length ≤ degree)
    (h : Invariant children entryN nodes cs s) :
    ∃ r, (∀ fuel, (nodes.card + 1) * (degree + 1) < fuel → pending nodes s < fuel →
        getNextSCC children fuel s = some r) ∧
      Found children entryN nodes cs (pending nodes s) r := by
  have hstart : Searching children entryN nodes cs (pending nodes s) { s with CurrentSCC := [] } :=
    ⟨h.setStack h.frames, rfl, Nat.le_refl _⟩
  obtain ⟨r, hrun, hfound⟩ := loop_rule (popFrame children)
    ((nodes.card + 1) * (degree + 1)) (pending nodes) (fun s hs => by
      obtain ⟨t, ht, hsat⟩ := popFrame_spec hc hdegree hs
      exact ⟨t, fun fuel hfuel => ht fuel (Nat.le_of_lt hfuel), hsat⟩) hstart
  exact ⟨r, fun fuel hfuel hpending => hrun fuel hfuel fuel hpending, hfound⟩

/-! ## The enumeration -/

def Position (children : NodeRef → List NodeRef) (entryN : NodeRef) (nodes : Finset NodeRef)
    (p : SCCIterator NodeRef × List (SCCIterator NodeRef)) : Prop :=
  (∀ it ∈ p.2, it.CurrentSCC ≠ []) ∧
    Found children entryN nodes (p.2.map (·.CurrentSCC)) (nodes.card + 1) p.1

/-- One more than the components that may be left. -/
def positionsLeft (nodes : Finset NodeRef) (p : SCCIterator NodeRef × List (SCCIterator NodeRef)) :
    Nat :=
  pending nodes p.1 + if p.1.CurrentSCC.isEmpty then 0 else 1

/-- All components, in order. -/
def Enumerated (children : NodeRef → List NodeRef) (entryN : NodeRef)
    (its : List (SCCIterator NodeRef)) : Prop :=
  (∀ it ∈ its, it.CurrentSCC ≠ []) ∧
    Enumeration (Edge children) (its.map (·.CurrentSCC)) ∧
    ∀ n, n ∈ (its.map (·.CurrentSCC)).flatten ↔ Reaches children entryN n

omit [DecidableEq NodeRef] in
theorem Searching.enumerated {frames : Nat} (h : Searching children entryN nodes cs frames s)
    (hV : s.VisitStack = []) (n : NodeRef) : n ∈ cs.flatten ↔ Reaches children entryN n := by
  have hinv := h.inv
  have hnone : ∀ x j, s.nodeVisitNumbers x = some j → x ∈ cs.flatten := by
    intro x j hx
    have hframes := hinv.frames
    rw [hV] at hframes
    cases hframes with
    | nil hnone =>
      have hlt := hnone x j hx
      rw [hinv.found x, hx]
      rcases hinv.numbers x j hx with hj | hj
      · omega
      · rw [hj]
  constructor
  · intro hn
    exact hinv.reach n allOnes ((hinv.found n).mp hn)
  · intro hn
    obtain ⟨j, hj⟩ := Option.ne_none_iff_exists'.mp hinv.entry
    exact closed_reach hinv.enumeration.closed (hnone entryN j hj) hn

omit [DecidableEq NodeRef] in
theorem Found.mono {frames frames' : Nat} (h : Found children entryN nodes cs frames s)
    (hle : frames ≤ frames') : Found children entryN nodes cs frames' s := by
  rcases h with ⟨hV, h⟩ | ⟨hne, hinv, hlt⟩
  · exact Or.inl ⟨hV, h.inv, h.current, Nat.le_trans h.pending_le hle⟩
  · exact Or.inr ⟨hne, hinv, Nat.lt_of_lt_of_le hlt hle⟩

theorem advance_spec (hc : Covers children entryN nodes) {degree : Nat}
    (hdegree : ∀ n ∈ nodes, (children n).length ≤ degree)
    {p : SCCIterator NodeRef × List (SCCIterator NodeRef)}
    (h : Position children entryN nodes p) :
    ∃ t, (∀ fuel, (nodes.card + 1) * (degree + 1) < fuel → advance children fuel p = some t) ∧
      t.Sat (fun p' => Position children entryN nodes p' ∧
          positionsLeft nodes p' < positionsLeft nodes p)
        (Enumerated children entryN) := by
  obtain ⟨it, its⟩ := p
  obtain ⟨hne, hfound⟩ := h
  rcases hfound with ⟨hV, hsearching⟩ | ⟨hcurrent, hinv, hlt⟩
  · refine ⟨.exit its, ?_, hne, hsearching.inv.enumeration, hsearching.enumerated hV⟩
    have hcurrent : it.CurrentSCC = [] := hsearching.current
    have hstack : it.VisitStack = [] := hV
    intro fuel _
    unfold advance isAtEnd
    dsimp only
    rw [hcurrent, hstack]
    rfl
  · obtain ⟨it', hrun, hfound⟩ := getNextSCC_spec hc hdegree hinv
    have hempty : it.CurrentSCC.isEmpty = false := by rwa [List.isEmpty_eq_false_iff]
    have hcard : nodes.card + 1 ≤ (nodes.card + 1) * (degree + 1) :=
      Nat.le_mul_of_pos_right _ (Nat.succ_pos _)
    refine ⟨.next (it', its ++ [it]), ?_, ⟨?_, ?_⟩, ?_⟩
    · intro fuel hfuel
      have hnext := hrun fuel hfuel (by omega)
      unfold advance isAtEnd
      simp only [hempty, hnext, Bool.not_false, Bool.true_or, guard, if_true]
      rfl
    · intro it'' hit
      rcases List.mem_append.mp hit with hit | hit
      · exact hne it'' hit
      · rwa [List.mem_singleton.mp hit]
    · dsimp only
      rw [List.map_append]
      exact hfound.mono (Nat.le_of_lt hlt)
    · unfold positionsLeft
      rw [hempty]
      rcases hfound with ⟨_, hsearching⟩ | ⟨hcurrent', _, hlt'⟩
      · have hle := hsearching.pending_le
        rw [hsearching.current]
        exact Nat.lt_succ_of_le hle
      · have hempty' : it'.CurrentSCC.isEmpty = false := by rwa [List.isEmpty_eq_false_iff]
        rw [hempty']
        exact Nat.succ_lt_succ hlt'

theorem scc_begin_spec (hc : Covers children entryN nodes) {degree : Nat}
    (hdegree : ∀ n ∈ nodes, (children n).length ≤ degree) :
    ∃ it, (∀ fuel, (nodes.card + 1) * (degree + 1) < fuel →
        scc_begin children fuel entryN = some it) ∧
      Position children entryN nodes (it, []) := by
  have hempty : Numbering children entryN nodes []
      (⟨0, fun _ => none, [], [], []⟩ : SCCIterator NodeRef) := by
    refine ⟨?_, ?_, ?_, ?_, ?_, List.Pairwise.nil, ?_, Enumeration.nil⟩
    · simp
    · intro x j hx
      cases hx
    · intro x j hx
      cases hx
    · intro x y j hx
      cases hx
    · simp
    · simp
  have hinv := hempty.dfsVisitOne hc (N := entryN) rfl ReflTransGen.refl (Or.inl rfl) (V := [])
    (fun p hp => nomatch hp) (.nil (by
      intro x j hx
      by_cases hxe : x = entryN
      · rw [hxe, Function.update_self, Option.some.injEq] at hx
        exact Nat.le_of_eq hx
      · rw [Function.update_of_ne hxe] at hx
        cases hx))
  obtain ⟨it, hrun, hfound⟩ := getNextSCC_spec hc hdegree hinv
  have hcard : nodes.card + 1 ≤ (nodes.card + 1) * (degree + 1) :=
    Nat.le_mul_of_pos_right _ (Nat.succ_pos _)
  have hpending : pending nodes (SCCIterator.dfsVisitOne children entryN
      (⟨0, fun _ => none, [], [], []⟩ : SCCIterator NodeRef)) ≤ nodes.card + 1 := by
    unfold pending
    change 1 + (nodes.card - 1) ≤ nodes.card + 1
    omega
  refine ⟨it, fun fuel hfuel => hrun fuel hfuel ?_, ?_, hfound.mono hpending⟩
  · exact Nat.lt_of_le_of_lt (Nat.le_trans hpending hcard) hfuel
  · intro it hit
    exact absurd hit List.not_mem_nil

theorem hasCycle_spec {cs : List (List NodeRef)} (h : Enumeration (Edge children) cs)
    (hmem : s.CurrentSCC ∈ cs) : ∃ b, s.hasCycle children = some b ∧
      (b = true ↔ ∃ n ∈ s.CurrentSCC, TransGen (Edge children) n n) := by
  have hnodup : s.CurrentSCC.Nodup := (List.nodup_flatten.mp h.nodup).1 _ hmem
  have hcycle := fun n hn => cycle_iff hnodup (h.component _ hmem) (a := n) hn
  have hne := h.ne_nil _ hmem
  unfold hasCycle
  cases hC : s.CurrentSCC with
  | nil => exact absurd hC hne
  | cons N rest =>
    rw [hC] at hcycle
    refine ⟨_, rfl, ?_⟩
    rw [Bool.or_eq_true, decide_eq_true_iff, List.any_eq_true]
    constructor
    · intro hb
      refine ⟨N, List.mem_cons_self, (hcycle N List.mem_cons_self).mpr ?_⟩
      rcases hb with hlen | ⟨w, hw, heq⟩
      · exact Or.inl hlen
      · exact Or.inr (eq_of_beq heq ▸ hw)
    · intro hn
      obtain ⟨n, hn, hself⟩ := hn
      rcases (hcycle n hn).mp hself with hlen | hedge
      · exact Or.inl hlen
      · rcases List.mem_cons.mp hn with heq | hrest
        · exact Or.inr ⟨N, heq ▸ hedge, beq_self_eq_true N⟩
        · left
          rw [List.length_cons]
          exact Nat.succ_lt_succ (List.length_pos_of_mem hrest)

end Turns

variable [DecidableEq NodeRef]

/--
The iterator returns every component that the entry reaches exactly once, each
after those that its edges lead to, and knows which have a cycle.
-/
theorem enumerate_components (children : NodeRef → List NodeRef) (entryN : NodeRef)
    (hfinite : {n | Reaches children entryN n}.Finite)
    (hcard : {n | Reaches children entryN n}.ncard < 2 ^ 32 - 1) :
    ∃ (its : List (SCCIterator NodeRef)) (bound : Nat),
      (∀ fuel, bound ≤ fuel → enumerate children fuel entryN = some its) ∧
      Enumeration (Edge children) (its.map (·.CurrentSCC)) ∧
      (∀ n, n ∈ (its.map (·.CurrentSCC)).flatten ↔ Reaches children entryN n) ∧
      ∀ it ∈ its, ∃ b, it.hasCycle children = some b ∧
        (b = true ↔ ∃ n ∈ it.CurrentSCC, TransGen (Edge children) n n) := by
  have hc : Covers children entryN hfinite.toFinset := by
    refine ⟨fun n => hfinite.mem_toFinset, ?_⟩
    rw [← Set.ncard_eq_toFinset_card _ hfinite]
    exact hcard
  generalize hfinite.toFinset = nodes at hc
  have hdegree : ∀ n ∈ nodes, (children n).length ≤ nodes.sup fun n => (children n).length :=
    fun n hn => Finset.le_sup (f := fun n => (children n).length) hn
  generalize nodes.sup (fun n => (children n).length) = degree at hdegree
  obtain ⟨it, hbegin, hposition⟩ := scc_begin_spec hc hdegree
  obtain ⟨its, hrun, hne, henum, hmem⟩ := loop_rule (advance children) _
    (positionsLeft nodes) (fun p hp => advance_spec hc hdegree hp) hposition
  refine ⟨its, (nodes.card + 1) * (degree + 1) + positionsLeft nodes (it, []) + 1, ?_, henum, hmem,
    fun it hit => hasCycle_spec henum (List.mem_map_of_mem hit)⟩
  intro fuel hfuel
  unfold enumerate
  rw [hbegin fuel (by omega)]
  exact hrun fuel (by omega) fuel (by omega)

/-- A cycle of two nodes, entered from a node with an edge to itself. -/
def threeNodes (n : Fin 3) : List (Fin 3) :=
  if n = 0 then [0, 1] else if n = 1 then [2] else [1]

theorem enumerate_components_threeNodes : ∃ its : List (SCCIterator (Fin 3)),
    (∃ fuel, enumerate threeNodes fuel 0 = some its) ∧
      Enumeration (Edge threeNodes) (its.map (·.CurrentSCC)) := by
  obtain ⟨its, bound, hrun, henum, _⟩ := enumerate_components threeNodes 0
    (Set.toFinite _) (Nat.lt_of_le_of_lt (Set.ncard_le_card _) (by rw [Nat.card_fin]; decide))
  exact ⟨its, ⟨bound, hrun bound (Nat.le_refl _)⟩, henum⟩

end SCCIterator

end SmlnjLlvm.Adt
