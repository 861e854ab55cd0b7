import Mathlib.Logic.Hydra
import SmlnjLlvm.Scheduling.SubGraph

/-!
# The order after queued edges

An edge is in the graph before the order is told of it, so several edges may go
backwards at a time. An update puts its edge right and turns no other one.
-/

namespace SmlnjLlvm.TopologicalSort

open Relation Loop Scheduling

/-- The call gives the result with any number of turns above some bound. -/
def Returns {α : Type} (call : Nat → Option α) (r : α) : Prop :=
  ∃ enough, ∀ fuel, enough < fuel → call fuel = some r

theorem Returns.unique {α : Type} {call : Nat → Option α} {r r' : α} (h : Returns call r)
    (h' : Returns call r') : r = r' := by
  obtain ⟨enough, h⟩ := h
  obtain ⟨enough', h'⟩ := h'
  have hfuel := h (max enough enough' + 1) (by omega)
  rw [h' _ (by omega)] at hfuel
  exact (Option.some.inj hfuel).symm

theorem Returns.bind {α β : Type} {call : Nat → Option α} {f : Nat → α → Option β} {a : α} {b : β}
    (h : Returns call a) (h' : Returns (f · a) b) :
    Returns (fun fuel => (call fuel).bind (f fuel)) b := by
  obtain ⟨enough, h⟩ := h
  obtain ⟨enough', h'⟩ := h'
  refine ⟨max enough enough', fun fuel hfuel => ?_⟩
  show (call fuel).bind (f fuel) = some b
  rw [h fuel (by omega)]
  exact h' fuel (by omega)

theorem Returns.of_eq {α : Type} {call : Nat → Option α} {r : α} (h : ∀ fuel, call fuel = some r) :
    Returns call r := ⟨0, fun fuel _ => h fuel⟩

section

variable {s : DAG Nat} {t : Topo} {Visited : Nat → Bool} {DAGSize UpperBound SU X Y : Nat}

/-! ## The search for the bound -/

theorem Formed.wellFounded {ExitSU : Option Nat} (hs : Formed s DAGSize ExitSU) :
    WellFounded fun y x => Link s DAGSize x y := by
  refine ⟨fun x => ?_⟩
  by_cases hx : x < DAGSize
  · exact hs.induction (fun x _ ih => Acc.intro x ih) x hx
  · exact Acc.intro x fun y hlink => absurd hlink.2.1 hx

def pushed (t : Topo) (UpperBound : Nat) (Visited : Nat → Bool) (D : SDep Nat) : Bool :=
  decide (D.SUnit < t.size) && !Visited D.SUnit && decide (t.Node2Index D.SUnit < UpperBound)

theorem pushSuccs_eq (l : List (SDep Nat)) (W : List Nat) :
    pushSuccs t UpperBound Visited l W =
      if ∃ D ∈ l, D.SUnit < t.size ∧ t.Node2Index D.SUnit = UpperBound then none
      else some (((l.filter (pushed t UpperBound Visited)).map SDep.SUnit).reverse ++ W) := by
  induction l generalizing W with
  | nil => simp [pushSuccs]
  | cons D l ih =>
    by_cases hsize : D.SUnit < t.size
    · by_cases hbound : t.Node2Index D.SUnit = UpperBound
      · simp [pushSuccs, hsize, hbound]
      · by_cases hpush : Visited D.SUnit = false ∧ t.Node2Index D.SUnit < UpperBound
        · simp [pushSuccs, pushed, ih, hsize, hbound, hpush]
        · simp [pushSuccs, pushed, ih, hsize, hbound, hpush]
    · simp [pushSuccs, pushed, ih, hsize]

/-- The unit was visited, or waits for it. -/
def Seen (p : (Nat → Bool) × List Nat) (x : Nat) : Prop := p.1 x = true ∨ x ∈ p.2

/-- Between turns, the edges of what was visited have been followed. -/
structure Searching (s : DAG Nat) (t : Topo) (SU UpperBound : Nat)
    (p : (Nat → Bool) × List Nat) : Prop where
  start : Seen p SU
  reached : ∀ x, Seen p x → x < t.size ∧ ReflTransGen (Link s t.size) SU x
  closed : ∀ x y, p.1 x = true → Link s t.size x y →
    t.Node2Index y ≠ UpperBound ∧ (t.Node2Index y < UpperBound → Seen p y)

/-- The search has found the bound, or visited all that it can reach below it. -/
def Searched (s : DAG Nat) (t : Topo) (SU UpperBound : Nat) (r : (Nat → Bool) × Bool) : Prop :=
  (r.2 = true → ∃ x, TransGen (Link s t.size) SU x ∧ t.Node2Index x = UpperBound) ∧
    (r.2 = false → Searching s t SU UpperBound (r.1, []))

/-- A unit that waits makes room for successors of it. -/
def Shrinks (s : DAG Nat) (size : Nat) (W' W : List Nat) : Prop :=
  CutExpand (fun y x => Link s size x y) (W' : Multiset Nat) (W : Multiset Nat)

theorem searchTurn_spec {p : (Nat → Bool) × List Nat} (h : Searching s t SU UpperBound p) :
    ∃ r, searchTurn s t UpperBound p = some r ∧ r.Sat
      (fun p' => Searching s t SU UpperBound p' ∧ Shrinks s t.size p'.2 p.2)
      (Searched s t SU UpperBound) := by
  obtain ⟨Visited, W⟩ := p
  cases W with
  | nil => exact ⟨.exit (Visited, false), rfl, by simp, fun _ => h⟩
  | cons n W =>
    obtain ⟨hn, hreach⟩ := h.reached n (Or.inr List.mem_cons_self)
    have hlink {D : SDep Nat} (hD : D ∈ (s n).Succs.reverse) (hsize : D.SUnit < t.size) :
        Link s t.size n D.SUnit := ⟨⟨D, List.mem_reverse.mp hD, rfl⟩, hn, hsize⟩
    unfold searchTurn
    simp only [pushSuccs_eq]
    by_cases hbound : ∃ D ∈ (s n).Succs.reverse, D.SUnit < t.size ∧ t.Node2Index D.SUnit = UpperBound
    · rw [if_pos hbound]
      obtain ⟨D, hD, hsize, hindex⟩ := hbound
      exact ⟨_, rfl, fun _ => ⟨_, TransGen.tail' hreach (hlink hD hsize), hindex⟩, by simp⟩
    · rw [if_neg hbound]
      generalize hP : (((s n).Succs.reverse.filter
        (pushed t UpperBound (Function.update Visited n true))).map SDep.SUnit).reverse = P
      have hmem (x : Nat) : x ∈ P ↔ ∃ D ∈ (s n).Succs.reverse,
          pushed t UpperBound (Function.update Visited n true) D = true ∧ D.SUnit = x := by
        simp only [← hP, List.mem_reverse, List.mem_map, List.mem_filter, and_assoc]
      have hpushed : ∀ x ∈ P, Link s t.size n x := by
        intro x hx
        obtain ⟨D, hD, hpush, rfl⟩ := (hmem x).mp hx
        simp only [pushed, Bool.and_eq_true, decide_eq_true_eq] at hpush
        exact hlink hD hpush.1.1
      have hseen (x : Nat) : Seen (Function.update Visited n true, P ++ W) x ↔
          Seen (Visited, n :: W) x ∨ x ∈ P := by
        by_cases hxn : x = n
        · simp [Seen, hxn]
        · simp [Seen, hxn, or_comm, or_assoc]
      refine ⟨_, rfl, ⟨(hseen SU).mpr (Or.inl h.start), fun x hx => ?_, fun x y hx hxy => ?_⟩, ?_⟩
      · rcases (hseen x).mp hx with hx | hx
        · exact h.reached x hx
        · exact ⟨(hpushed x hx).2.2, hreach.tail (hpushed x hx)⟩
      · by_cases hxn : x = n
        · obtain ⟨D, hD, rfl⟩ := (hxn ▸ hxy).1
          have hD := List.mem_reverse.mpr hD
          refine ⟨fun heq => hbound ⟨D, hD, hxy.2.2, heq⟩, fun hlt => ?_⟩
          by_cases hvisited : Function.update Visited n true D.SUnit = true
          · exact Or.inl hvisited
          · refine (hseen _).mpr (Or.inr ((hmem _).mpr ⟨D, hD, ?_, rfl⟩))
            simp [pushed, hxy.2.2, hlt, hvisited]
        · have hvisited : Visited x = true := (Function.update_of_ne hxn _ _).symm.trans hx
          obtain ⟨hne, hbelow⟩ := h.closed x y hvisited hxy
          exact ⟨hne, fun hlt => (hseen y).mpr (Or.inl (hbelow hlt))⟩
      · refine ⟨P, n, hpushed, Multiset.coe_eq_coe.mpr (List.perm_iff_count.mpr fun x => ?_)⟩
        simp only [List.count_append, List.count_cons, List.count_nil]
        omega

theorem DFS_spec (hs : Formed s t.size t.ExitSU) (hSU : SU < t.size) (UpperBound : Nat) :
    ∃ r, Returns (DFS · s t SU UpperBound) r ∧ Searched s t SU UpperBound r := by
  have hstart : Searching s t SU UpperBound (fun _ => false, [SU]) := by
    refine ⟨Or.inr List.mem_cons_self, fun x hx => ?_, by simp⟩
    obtain rfl : x = SU := by simpa [Seen] using hx
    exact ⟨hSU, ReflTransGen.refl⟩
  have hwf := InvImage.wf (fun p : (Nat → Bool) × List Nat => (p.2 : Multiset Nat))
    hs.wellFounded.cutExpand
  obtain ⟨r, enough, hrun, hr⟩ := loop_rule_wf (fun _ => searchTurn s t UpperBound) 0 hwf
    (fun p hp => by
      obtain ⟨r, hturn, hr⟩ := searchTurn_spec hp
      exact ⟨r, fun _ _ => hturn, hr⟩) hstart
  exact ⟨r, ⟨enough, hrun 1 Nat.one_pos⟩, hr⟩

/-! ## Updates -/

/-- Other indices, and no edge has been turned back. -/
structure Updated (s : DAG Nat) (t t' : Topo) : Prop where
  rest : t' = { t with Index2Node := t'.Index2Node, Node2Index := t'.Node2Index }
  inverse : Inverse t'
  forward : ∀ x y, Link s t.size x y → t.Node2Index x < t.Node2Index y →
    t'.Node2Index x < t'.Node2Index y

theorem AddPred_spec (hs : Formed s t.size t.ExitSU) (ht : Inverse t) (hX : X < t.size)
    (hY : Y < t.size) (hpath : ¬ ReflTransGen (Link s t.size) Y X) :
    ∃ t', Returns (AddPred · s t Y X) t' ∧ Updated s t t' ∧
      t'.Node2Index X < t'.Node2Index Y := by
  unfold AddPred
  by_cases hless : t.Node2Index Y < t.Node2Index X
  · simp only [if_pos hless]
    obtain ⟨⟨Visited, HasLoop⟩, hrun, hfound, hclosed⟩ := DFS_spec hs hY (t.Node2Index X)
    have hloop : HasLoop = false := by
      by_contra hloop
      obtain ⟨x, hx, hindex⟩ := hfound (Bool.eq_true_of_not_eq_false hloop)
      obtain ⟨y, -, hlink⟩ := TransGen.tail'_iff.mp hx
      rw [ht.injective hlink.2.2 hX hindex] at hx
      exact hpath hx.to_reflTransGen
    subst hloop
    obtain ⟨hstart, hreached, hclosed⟩ := hclosed rfl
    have hvisited {x : Nat} (hx : Seen (Visited, []) x) : Visited x = true :=
      hx.resolve_right List.not_mem_nil
    have hmarked (k : Nat) (hk : Marked t Visited (t.Node2Index Y) k) : t.Node2Index Y ≤ k := hk.1
    obtain ⟨⟨I2N, N2I, hshift⟩, hinverse, hindex⟩ := @Shift_spec t Visited _ _ ht
      (Nat.le_of_lt hless) (ht.index_lt X hX)
    refine ⟨_, hrun.bind (Returns.of_eq fun _ => rfl),
      ⟨by rw [hshift], hinverse, fun x y hlink hxy => ?_⟩, ?_⟩
    · rw [hindex x hlink.2.1, hindex y hlink.2.2]
      refine StablePartition.moved_lt hmarked hxy fun hlo hhi hx => ⟨by omega, ?_⟩
      have hx' := hx.2
      rw [ht.node_index x hlink.2.1] at hx'
      obtain ⟨hne, hbelow⟩ := hclosed x y hx' hlink
      rw [ht.node_index y hlink.2.2]
      exact hvisited (hbelow (by omega))
    · rw [hindex X hX, hindex Y hY]
      refine StablePartition.moved_lt_of_unmarked_marked hmarked (Nat.le_of_lt hless) (by omega)
        (Nat.le_refl _) (by omega) (fun hmark => ?_) ⟨Nat.le_refl _, ?_⟩
      · have hseen := hmark.2
        rw [ht.node_index X hX] at hseen
        exact hpath (hreached X (Or.inl hseen)).2
      · rw [ht.node_index Y hY]
        exact hvisited hstart
  · simp only [if_neg hless]
    refine ⟨t, Returns.of_eq fun _ => rfl, ⟨rfl, ht, fun _ _ _ h => h⟩, ?_⟩
    have hne : t.Node2Index X ≠ t.Node2Index Y := by
      intro heq
      rw [ht.injective hX hY heq] at hpath
      exact hpath ReflTransGen.refl
    omega

theorem updates_spec (hs : Formed s t.size t.ExitSU) (ht : Inverse t) (l : List (Nat × Nat))
    (hl : ∀ U ∈ l, Link s t.size U.2 U.1) :
    ∃ t', Returns (fun fuel => l.foldlM (fun t U => AddPred fuel s t U.1 U.2) t) t' ∧
      Updated s t t' ∧ ∀ U ∈ l, t'.Node2Index U.2 < t'.Node2Index U.1 := by
  induction l generalizing t with
  | nil => exact ⟨t, Returns.of_eq fun _ => rfl, ⟨rfl, ht, fun _ _ _ h => h⟩, by simp⟩
  | cons U l ih =>
    have hU := hl U List.mem_cons_self
    obtain ⟨t₁, hrun, ⟨hrest, ht₁, hforward⟩, hnew⟩ := AddPred_spec hs ht hU.2.1 hU.2.2
      fun hpath => hs.acyclic U.2 (TransGen.head' hU hpath)
    have hsize : t₁.size = t.size := by rw [hrest]
    obtain ⟨t', hrun', ⟨hrest', ht', hforward'⟩, hlater⟩ := @ih t₁
      (by rwa [hsize, hrest]) ht₁ (fun V hV => hsize ▸ hl V (List.mem_cons_of_mem U hV))
    rw [hsize] at hforward'
    refine ⟨t', hrun.bind hrun', ⟨by rw [hrest', hrest], ht', fun x y hlink hxy => ?_⟩,
      fun V hV => ?_⟩
    · exact hforward' x y hlink (hforward x y hlink hxy)
    · rcases List.mem_cons.mp hV with rfl | hV
      · exact hforward' V.2 V.1 hU hnew
      · exact hlater V hV

/-- Edges that go backwards are queued, and what is queued is an edge. -/
structure Tracked (s : DAG Nat) (t : Topo) : Prop where
  known : ∀ x y, Link s t.size x y → t.Node2Index x < t.Node2Index y ∨ (y, x) ∈ t.Updates
  queued : ∀ U ∈ t.Updates, Link s t.size U.2 U.1

/-- The order is one of the graph, and nothing is queued. -/
structure Fixed (s : DAG Nat) (DAGSize : Nat) (ExitSU : Option Nat) (t : Topo) : Prop where
  inverse : Inverse t
  sorted : Sorted s t
  size : t.size = DAGSize
  exit : t.ExitSU = ExitSU
  clean : t.Dirty = false
  updates : t.Updates = []

/-- The order follows the graph, unless it is computed again. -/
structure Follows (s : DAG Nat) (DAGSize : Nat) (ExitSU : Option Nat) (t : Topo) : Prop where
  formed : Formed s DAGSize ExitSU
  consistent : Consistent ExitSU t
  tracked : t.Dirty = false → t.size = DAGSize ∧ Tracked s t

theorem Fixed.follows {ExitSU : Option Nat} (h : Fixed s DAGSize ExitSU t)
    (hs : Formed s DAGSize ExitSU) : Follows s DAGSize ExitSU t := by
  refine ⟨hs, ⟨h.exit, h.inverse, by simp [h.updates]⟩, fun _ => ⟨h.size, ?_, by simp [h.updates]⟩⟩
  exact fun x y hlink => Or.inl (h.sorted x y hlink.1 hlink.2.2)

theorem Init_spec (hs : Formed s DAGSize t.ExitSU) :
    ∃ t', Returns (InitDAGTopologicalSorting · DAGSize s t) t' ∧ Fixed s DAGSize t.ExitSU t' := by
  obtain ⟨t', enough, hrun, ht', hsorted, hsize, hexit, hclean, hupdates⟩ :=
    InitDAGTopologicalSorting_ordered hs
  exact ⟨t', ⟨enough, hrun⟩, ht', hsorted, hsize, hexit, hclean, hupdates⟩

theorem FixOrder_spec {ExitSU : Option Nat} (h : Follows s DAGSize ExitSU t) :
    ∃ t', Returns (FixOrder · DAGSize s t) t' ∧ Fixed s DAGSize ExitSU t' := by
  obtain ⟨hs, ⟨rfl, ht, -⟩, h⟩ := h
  unfold FixOrder
  by_cases hdirty : t.Dirty = true
  · simp only [if_pos hdirty]
    exact Init_spec hs
  · simp only [if_neg hdirty]
    have hclean := Bool.eq_false_iff.mpr hdirty
    obtain ⟨rfl, hknown, hqueued⟩ := h hclean
    obtain ⟨t', hrun, ⟨hrest, ht', hforward⟩, hnew⟩ := updates_spec hs ht t.Updates hqueued
    refine ⟨_, hrun.bind (Returns.of_eq fun _ => rfl), ⟨ht'.1, ht'.2, ht'.3, ht'.4⟩,
      fun x y hedge hy => ?_, ?_, ?_, ?_, rfl⟩
    · have hlink : Link s t.size x y := ⟨hedge, (hs.ends x y hedge).1, by rwa [hrest] at hy⟩
      rcases hknown x y hlink with hless | hU
      · exact hforward x y hlink hless
      · exact hnew _ hU
    all_goals rw [hrest]
    exact hclean

end

/-! ## Runs -/

/--
The graph and the order, where each new edge between units is announced and no
edge is taken away while it is queued, or else the order is computed again.
-/
inductive Announced (ExitSU : Option Nat) : DAG Nat → Nat → Topo → Prop
  | dirty {s DAGSize t} (h : Reachable ExitSU s DAGSize t) (ht : t.Dirty = true) :
      Announced ExitSU s DAGSize t
  | init {s DAGSize t t'} (h : Reachable ExitSU s DAGSize t)
      (hrun : Returns (InitDAGTopologicalSorting · DAGSize s t) t') : Announced ExitSU s DAGSize t'
  | graph {s s' DAGSize t} (h : Announced ExitSU s DAGSize t) (hs : Formed s' DAGSize ExitSU)
      (hold : ∀ x y, Link s' DAGSize x y → Edge s x y) (hkept : ∀ U ∈ t.Updates, Edge s' U.2 U.1) :
      Announced ExitSU s' DAGSize t
  | queued {s s' DAGSize t X Y} (h : Announced ExitSU s DAGSize t) (hs : Formed s' DAGSize ExitSU)
      (hY : Y < DAGSize) (hedge : ∀ x y, Edge s' x y ↔ Edge s x y ∨ x = X ∧ y = Y) :
      Announced ExitSU s' DAGSize (AddPredQueued t Y X)
  | added {s s' DAGSize t t' X Y} (h : Announced ExitSU s DAGSize t)
      (hs : Formed s' DAGSize ExitSU) (hX : X < t.size) (hY : Y < t.size)
      (hedge : ∀ x y, Edge s' x y ↔ Edge s x y ∨ x = X ∧ y = Y)
      (hrun : Returns (AddPred · s t Y X) t') : Announced ExitSU s' DAGSize t'
  | addSUnit {s DAGSize SU t t'} (h : Announced ExitSU s DAGSize t)
      (hs : Formed s (DAGSize + 1) ExitSU) (hrun : AddSUnitWithoutPredecessors s t SU = some t') :
      Announced ExitSU s (DAGSize + 1) t'
  | fixOrder {s DAGSize t t'} (h : Announced ExitSU s DAGSize t)
      (hrun : Returns (FixOrder · DAGSize s t) t') : Announced ExitSU s DAGSize t'

section

variable {ExitSU : Option Nat} {s : DAG Nat} {DAGSize : Nat} {t : Topo}

theorem Announced.follows (h : Announced ExitSU s DAGSize t) : Follows s DAGSize ExitSU t := by
  induction h with
  | dirty h ht => exact ⟨h.consistent.1, h.consistent.2, by simp [ht]⟩
  | init h hrun =>
    obtain ⟨hs, ⟨rfl, -⟩⟩ := h.consistent
    obtain ⟨t₁, hrun₁, hfixed⟩ := Init_spec hs
    obtain rfl := hrun.unique hrun₁
    exact hfixed.follows hs
  | graph _ hs hold hkept ih =>
    refine ⟨hs, ih.consistent, fun hclean => ?_⟩
    obtain ⟨rfl, hknown, hqueued⟩ := ih.tracked hclean
    exact ⟨rfl, fun x y hlink => hknown x y ⟨hold x y hlink, hlink.2⟩,
      fun U hU => ⟨hkept U hU, (hqueued U hU).2⟩⟩
  | @queued s s' _ t X Y _ hs hY hedge ih =>
    have hX := (hs.ends X Y ((hedge X Y).mpr (Or.inr ⟨rfl, rfl⟩))).1
    refine ⟨hs, ih.consistent.addPredQueued fun hclean => ?_, fun hclean => ?_⟩
    · rw [(ih.tracked hclean).1]
      exact ⟨hY, hX⟩
    · unfold AddPredQueued at hclean ⊢
      by_cases hdirty : (t.Dirty || decide (10 < t.Updates.length)) = true
      · rw [if_pos hdirty] at hclean
        exact absurd hdirty (Bool.eq_false_iff.mp hclean)
      · rw [if_neg hdirty]
        rw [Bool.or_eq_true, not_or] at hdirty
        obtain ⟨rfl, hknown, hqueued⟩ := ih.tracked (Bool.eq_false_iff.mpr hdirty.1)
        refine ⟨rfl, fun x y hlink => ?_, fun U hU => ?_⟩
        · rcases (hedge x y).mp hlink.1 with hold | ⟨rfl, rfl⟩
          · exact (hknown x y ⟨hold, hlink.2⟩).imp_right (List.mem_append_left _)
          · exact Or.inr (List.mem_append_right _ (List.mem_singleton_self _))
        · rcases List.mem_append.mp hU with hU | hU
          · exact ⟨(hedge _ _).mpr (Or.inl (hqueued U hU).1), (hqueued U hU).2⟩
          · rw [List.mem_singleton.mp hU]
            exact ⟨(hedge _ _).mpr (Or.inr ⟨rfl, rfl⟩), hX, hY⟩
  | @added s s' _ t t' X Y _ hs hX hY hedge hrun ih =>
    obtain ⟨enough, hfuel⟩ := id hrun
    obtain ⟨hconsistent, hsize, hupdates, hdirty⟩ :=
      ih.consistent.addPred hX (hfuel _ (Nat.lt_succ_self enough))
    refine ⟨hs, hconsistent, fun hclean => ?_⟩
    obtain ⟨rfl, hknown, hqueued⟩ := ih.tracked (hdirty ▸ hclean)
    have hgrow {x y : Nat} (h : Link s t.size x y) : Link s' t.size x y :=
      ⟨(hedge x y).mpr (Or.inl h.1), h.2⟩
    obtain ⟨t₁, hrun₁, hupdated, hnew⟩ := AddPred_spec (ih.consistent.exit.symm ▸ ih.formed)
      ih.consistent.inverse hX hY fun hpath => hs.acyclic X
        (TransGen.head' ⟨(hedge X Y).mpr (Or.inr ⟨rfl, rfl⟩), hX, hY⟩
          (ReflTransGen.mono (fun _ _ => hgrow) _ _ hpath))
    obtain rfl := hrun.unique hrun₁
    refine ⟨hsize, fun x y hlink => ?_, fun U hU => ?_⟩
    · rw [hsize] at hlink
      rw [hupdates]
      rcases (hedge x y).mp hlink.1 with hold | ⟨rfl, rfl⟩
      · exact (hknown x y ⟨hold, hlink.2⟩).imp_left (hupdated.forward x y ⟨hold, hlink.2⟩)
      · exact Or.inl hnew
    · rw [hsize]
      exact hgrow (hqueued U (hupdates ▸ hU))
  | addSUnit _ hs hrun ih =>
    refine ⟨hs, ih.consistent.addSUnit hrun, fun hclean => ?_⟩
    simp only [AddSUnitWithoutPredecessors, Option.bind_eq_bind, Option.bind_eq_some_iff,
      Option.some.injEq] at hrun
    obtain ⟨-, -, -, -, rfl⟩ := hrun
    obtain ⟨rfl, hknown, hqueued⟩ := ih.tracked hclean
    refine ⟨rfl, fun x y hlink => ?_, fun U hU => ?_⟩
    · dsimp only
      obtain ⟨hx, hy⟩ := ih.formed.ends x y hlink.1
      have hsize := hs.size_le
      have hy := hy.resolve_right fun hexit => by
        have heq := ih.formed.exit y hexit
        have hlt : y < _ + 1 := hlink.2.2
        omega
      rw [Function.update_of_ne (Nat.ne_of_lt hx), Function.update_of_ne (Nat.ne_of_lt hy)]
      exact hknown x y ⟨hlink.1, hx, hy⟩
    · obtain ⟨hedge, hX, hY⟩ := hqueued U hU
      exact ⟨hedge, Nat.lt_succ_of_lt hX, Nat.lt_succ_of_lt hY⟩
  | fixOrder _ hrun ih =>
    obtain ⟨t₁, hrun₁, hfixed⟩ := FixOrder_spec ih
    obtain rfl := hrun.unique hrun₁
    exact hfixed.follows ih.formed

/--
After announced changes in any order, the order is put right without a failed
assertion, and a unit is reachable exactly where a path leads to it.
-/
theorem IsReachable_exact (h : Announced ExitSU s DAGSize t) {SU TargetSU : Nat}
    (hSU : SU < DAGSize) (hTarget : TargetSU < DAGSize) :
    ∃ t' b, Returns (IsReachable · DAGSize s t SU TargetSU) (t', b) ∧ Fixed s DAGSize ExitSU t' ∧
      (b = true ↔ TransGen (Link s DAGSize) TargetSU SU) := by
  obtain ⟨t', hfix, hfixed⟩ := FixOrder_spec h.follows
  obtain rfl := hfixed.size
  have hs := hfixed.exit ▸ h.follows.formed
  by_cases hless : t'.Node2Index TargetSU < t'.Node2Index SU
  · obtain ⟨⟨Visited, b⟩, hrun, hfound, hclosed⟩ := DFS_spec hs hTarget (t'.Node2Index SU)
    refine ⟨t', b, hfix.bind ?_, hfixed, fun hb => ?_, fun hpath => ?_⟩
    · simp only [if_pos hless]
      exact hrun.bind (Returns.of_eq fun _ => rfl)
    · obtain ⟨x, hx, hindex⟩ := hfound hb
      obtain ⟨y, -, hlink⟩ := TransGen.tail'_iff.mp hx
      rwa [hfixed.inverse.injective hlink.2.2 hSU hindex] at hx
    · by_contra hb
      obtain ⟨hstart, -, hnext⟩ := hclosed (Bool.eq_false_iff.mpr hb)
      -- What leads to the bound was not visited.
      have hnone : ∀ x, TransGen (Link s t'.size) x SU → ¬ Seen (Visited, []) x := by
        intro x hx
        induction hx using TransGen.head_induction_on with
        | single hlink =>
          exact fun hseen => (hnext _ _ (hseen.resolve_right List.not_mem_nil) hlink).1 rfl
        | head hlink hrest ih =>
          exact fun hseen => ih ((hnext _ _ (hseen.resolve_right List.not_mem_nil) hlink).2
            (hfixed.sorted.index_lt hrest))
      exact hnone TargetSU hpath hstart
  · refine ⟨t', false, hfix.bind ?_, hfixed, by simp,
      fun hpath => absurd (hfixed.sorted.index_lt hpath) hless⟩
    simp only [if_neg hless]
    exact Returns.of_eq fun _ => rfl

/-- The edge is queued while the order has it backwards, and then found. -/
theorem IsReachable_exact_queued : ∃ t t', Announced none backEdge 2 (AddPredQueued t 0 1) ∧
    Returns (IsReachable · 2 backEdge (AddPredQueued t 0 1) 0 1) (t', true) ∧
      Fixed backEdge 2 none t' := by
  obtain ⟨t, hrun, -⟩ := @Init_spec _ { ExitSU := none } 2 formed_noEdge
  have h : Announced none backEdge 2 (AddPredQueued t 0 1) := by
    refine (Announced.init (.start formed_noEdge) hrun).queued formed_backEdge Nat.two_pos ?_
    intro x y
    rw [edge_backEdge]
    exact (or_iff_right fun ⟨D, hD, _⟩ => absurd hD List.not_mem_nil).symm
  obtain ⟨t', b, hreach, hfixed, hb⟩ := IsReachable_exact h Nat.two_pos Nat.one_lt_two
  rw [hb.mpr (TransGen.single ⟨edge_backEdge.mpr ⟨rfl, rfl⟩, Nat.one_lt_two, Nat.two_pos⟩)] at hreach
  exact ⟨t, t', h, hreach, hfixed⟩

end

end SmlnjLlvm.TopologicalSort
