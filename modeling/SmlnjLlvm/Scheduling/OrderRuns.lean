import SmlnjLlvm.Scheduling.InitialOrder

/-!
# Runs of the topological order

The graph changes, and the order is told of it, computed again or repaired. The
two vectors stay inverse to each other, whether or not the order is up to date.
-/

namespace SmlnjLlvm.TopologicalSort

open Loop Scheduling

/-- The states of the order, with a graph and the number of its units. -/
inductive Reachable (ExitSU : Option Nat) : DAG Nat → Nat → Topo → Prop
  | start {s : DAG Nat} {DAGSize : Nat} (hs : Formed s DAGSize ExitSU) :
      Reachable ExitSU s DAGSize { ExitSU }
  | graph {s s' : DAG Nat} {DAGSize DAGSize' : Nat} {t : Topo} (h : Reachable ExitSU s DAGSize t)
      (hs : Formed s' DAGSize' ExitSU) : Reachable ExitSU s' DAGSize' t
  | init {s : DAG Nat} {DAGSize fuel : Nat} {t t' : Topo} (h : Reachable ExitSU s DAGSize t)
      (hrun : InitDAGTopologicalSorting fuel DAGSize s t = some t') : Reachable ExitSU s DAGSize t'
  | addPred {s : DAG Nat} {DAGSize fuel Y X : Nat} {t t' : Topo} (h : Reachable ExitSU s DAGSize t)
      (hY : Y < t.size) (hX : X < t.size) (hrun : AddPred fuel s t Y X = some t') :
      Reachable ExitSU s DAGSize t'
  | addPredQueued {s : DAG Nat} {DAGSize Y X : Nat} {t : Topo} (h : Reachable ExitSU s DAGSize t)
      (hY : t.Dirty = false → Y < t.size ∧ X < t.size) :
      Reachable ExitSU s DAGSize (AddPredQueued t Y X)
  | removePred {s : DAG Nat} {DAGSize M N : Nat} {t : Topo} (h : Reachable ExitSU s DAGSize t) :
      Reachable ExitSU s DAGSize (RemovePred t M N)
  | markDirty {s : DAG Nat} {DAGSize : Nat} {t : Topo} (h : Reachable ExitSU s DAGSize t) :
      Reachable ExitSU s DAGSize { t with Dirty := true }
  | addSUnit {s : DAG Nat} {DAGSize SU : Nat} {t t' : Topo} (h : Reachable ExitSU s DAGSize t)
      (hrun : AddSUnitWithoutPredecessors s t SU = some t') : Reachable ExitSU s DAGSize t'
  | fixOrder {s : DAG Nat} {DAGSize fuel : Nat} {t t' : Topo} (h : Reachable ExitSU s DAGSize t)
      (hrun : FixOrder fuel DAGSize s t = some t') : Reachable ExitSU s DAGSize t'

/-- The vectors are inverse, and the queued updates are about units with an index. -/
structure Consistent (ExitSU : Option Nat) (t : Topo) : Prop where
  exit : t.ExitSU = ExitSU
  inverse : Inverse t
  updates : ∀ U ∈ t.Updates, U.1 < t.size ∧ U.2 < t.size

section

variable {ExitSU : Option Nat} {s : DAG Nat} {DAGSize fuel Y X : Nat} {t t' : Topo}

theorem init_fuel (h : InitDAGTopologicalSorting fuel DAGSize s t = some t') (more : Nat) :
    InitDAGTopologicalSorting (fuel + more) DAGSize s t = some t' := by
  unfold InitDAGTopologicalSorting at h ⊢
  simp only [Option.bind_eq_bind, Option.bind_eq_some_iff] at h ⊢
  obtain ⟨q, hloop, hrest⟩ := h
  exact ⟨q, loop_add hloop more, hrest⟩

theorem Consistent.init (h : Consistent ExitSU t) (hs : Formed s DAGSize ExitSU)
    (hrun : InitDAGTopologicalSorting fuel DAGSize s t = some t') :
    Consistent ExitSU t' ∧ Sorted s t' ∧ t'.size = DAGSize := by
  obtain ⟨t₁, enough, hfuel, hinverse, hsorted, hsize, hexit, -, hupdates⟩ :=
    InitDAGTopologicalSorting_ordered (h.exit.symm ▸ hs)
  have hmore := init_fuel hrun (enough + 1)
  obtain rfl : t₁ = t' := Option.some.inj ((hfuel _ (by omega)).symm.trans hmore)
  refine ⟨⟨hexit.trans h.exit, hinverse, ?_⟩, hsorted, hsize⟩
  rw [hupdates]
  exact fun U hU => absurd hU List.not_mem_nil

theorem Consistent.addPred (h : Consistent ExitSU t) (hX : X < t.size)
    (hrun : AddPred fuel s t Y X = some t') :
    Consistent ExitSU t' ∧ t'.size = t.size ∧ t'.Updates = t.Updates ∧ t'.Dirty = t.Dirty := by
  unfold AddPred at hrun
  dsimp only at hrun
  split at hrun
  · next hless =>
    simp only [Option.bind_eq_bind, Option.bind_eq_some_iff] at hrun
    obtain ⟨⟨Visited, HasLoop⟩, -, -, -, hshift⟩ := hrun
    obtain ⟨⟨I2N, N2I, hrest⟩, hinverse, -⟩ := @Shift_spec t Visited _ _ h.inverse
      (Nat.le_of_lt hless) (h.inverse.index_lt X hX)
    obtain rfl := Option.some.inj hshift
    rw [hrest] at hinverse ⊢
    exact ⟨⟨h.exit, hinverse, h.updates⟩, rfl, rfl, rfl⟩
  · obtain rfl := Option.some.inj hrun
    exact ⟨h, rfl, rfl, rfl⟩

theorem Consistent.addPredQueued (h : Consistent ExitSU t)
    (hY : t.Dirty = false → Y < t.size ∧ X < t.size) : Consistent ExitSU (AddPredQueued t Y X) := by
  unfold AddPredQueued
  dsimp only
  split
  · exact ⟨h.exit, ⟨h.inverse.1, h.inverse.2, h.inverse.3, h.inverse.4⟩, h.updates⟩
  · next hdirty =>
    rw [Bool.or_eq_true, not_or] at hdirty
    refine ⟨h.exit, ⟨h.inverse.1, h.inverse.2, h.inverse.3, h.inverse.4⟩, fun U hU => ?_⟩
    rcases List.mem_append.mp hU with hU | hU
    · exact h.updates U hU
    · rw [List.mem_singleton.mp hU]
      exact hY (Bool.eq_false_iff.mpr hdirty.1)

theorem Consistent.addSUnit {SU : Nat} (h : Consistent ExitSU t)
    (hrun : AddSUnitWithoutPredecessors s t SU = some t') : Consistent ExitSU t' := by
  unfold AddSUnitWithoutPredecessors at hrun
  by_cases hSU : SU = t.size
  swap
  · rw [guard, if_neg hSU] at hrun
    cases hrun
  by_cases hpreds : (s SU).NumPreds = 0
  swap
  · rw [guard, if_pos hSU, guard, if_neg hpreds] at hrun
    cases hrun
  rw [guard, if_pos hSU, guard, if_pos hpreds] at hrun
  obtain rfl := Option.some.inj hrun
  subst hSU
  have hold {f : Nat → Nat} {n : Nat} (hn : n < t.size) : Function.update f t.size t.size n = f n :=
    Function.update_of_ne (Nat.ne_of_lt hn) t.size f
  have hnew (f : Nat → Nat) : Function.update f t.size t.size t.size = t.size :=
    Function.update_self t.size t.size f
  refine ⟨h.exit, ⟨fun n hn => ?_, fun i hi => ?_, fun n hn => ?_, fun i hi => ?_⟩, fun U hU => ?_⟩
  · dsimp only at hn ⊢
    rcases Nat.lt_succ_iff_lt_or_eq.mp hn with hn | rfl
    · rw [hold hn]
      exact Nat.lt_succ_of_lt (h.inverse.index_lt n hn)
    · rw [hnew]
      exact Nat.lt_succ_self _
  · dsimp only at hi ⊢
    rcases Nat.lt_succ_iff_lt_or_eq.mp hi with hi | rfl
    · rw [hold hi]
      exact Nat.lt_succ_of_lt (h.inverse.node_lt i hi)
    · rw [hnew]
      exact Nat.lt_succ_self _
  · dsimp only at hn ⊢
    rcases Nat.lt_succ_iff_lt_or_eq.mp hn with hn | rfl
    · rw [hold hn, hold (h.inverse.index_lt n hn)]
      exact h.inverse.node_index n hn
    · rw [hnew, hnew]
  · dsimp only at hi ⊢
    rcases Nat.lt_succ_iff_lt_or_eq.mp hi with hi | rfl
    · rw [hold hi, hold (h.inverse.node_lt i hi)]
      exact h.inverse.index_node i hi
    · rw [hnew, hnew]
  · obtain ⟨hY, hX⟩ := h.updates U hU
    exact ⟨Nat.lt_succ_of_lt hY, Nat.lt_succ_of_lt hX⟩

theorem Consistent.fixOrder (h : Consistent ExitSU t) (hs : Formed s DAGSize ExitSU)
    (hrun : FixOrder fuel DAGSize s t = some t') : Consistent ExitSU t' := by
  -- The updates are applied one by one.
  have hupdates : ∀ (Updates : List (Nat × Nat)) (t t' : Topo), Consistent ExitSU t →
      (∀ U ∈ Updates, U.1 < t.size ∧ U.2 < t.size) →
      Updates.foldlM (fun t U => AddPred fuel s t U.1 U.2) t = some t' → Consistent ExitSU t' := by
    intro Updates
    induction Updates with
    | nil =>
      intro t t' ht _ hfold
      obtain rfl := Option.some.inj hfold
      exact ht
    | cons U Updates ih =>
      intro t t' ht hmem hfold
      rw [List.foldlM_cons, Option.bind_eq_bind, Option.bind_eq_some_iff] at hfold
      obtain ⟨t₁, hfirst, hrest⟩ := hfold
      obtain ⟨h₁, hsize, -⟩ := ht.addPred (hmem U List.mem_cons_self).2 hfirst
      refine ih t₁ t' h₁ (fun V hV => ?_) hrest
      rw [hsize]
      exact hmem V (List.mem_cons_of_mem U hV)
  unfold FixOrder at hrun
  split at hrun
  · exact (h.init hs hrun).1
  · rw [Option.bind_eq_bind, Option.bind_eq_some_iff] at hrun
    obtain ⟨t₁, hfold, hlast⟩ := hrun
    obtain ⟨hexit, hinverse, -⟩ := hupdates t.Updates t t₁ h h.updates hfold
    obtain rfl := Option.some.inj hlast
    exact ⟨hexit, ⟨hinverse.1, hinverse.2, hinverse.3, hinverse.4⟩,
      fun U hU => absurd hU List.not_mem_nil⟩

theorem Reachable.consistent (h : Reachable ExitSU s DAGSize t) :
    Formed s DAGSize ExitSU ∧ Consistent ExitSU t := by
  induction h with
  | start hs =>
    refine ⟨hs, rfl, ⟨?_, ?_, ?_, ?_⟩, fun U hU => absurd hU List.not_mem_nil⟩
    all_goals exact fun n hn => absurd hn (Nat.not_lt_zero n)
  | graph _ hs ih => exact ⟨hs, ih.2⟩
  | init _ hrun ih => exact ⟨ih.1, (ih.2.init ih.1 hrun).1⟩
  | addPred _ _ hX hrun ih => exact ⟨ih.1, (ih.2.addPred hX hrun).1⟩
  | addPredQueued _ hY ih => exact ⟨ih.1, ih.2.addPredQueued hY⟩
  | removePred _ ih => exact ih
  | markDirty _ ih =>
    obtain ⟨hs, hexit, hinverse, hupdates⟩ := ih
    exact ⟨hs, hexit, ⟨hinverse.1, hinverse.2, hinverse.3, hinverse.4⟩, hupdates⟩
  | addSUnit _ hrun ih => exact ⟨ih.1, ih.2.addSUnit hrun⟩
  | fixOrder _ hrun ih => exact ⟨ih.1, ih.2.fixOrder ih.1 hrun⟩

end

end SmlnjLlvm.TopologicalSort
