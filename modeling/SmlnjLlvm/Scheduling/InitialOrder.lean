import Mathlib.Logic.Relation
import SmlnjLlvm.Scheduling.EdgeChanges
import SmlnjLlvm.Scheduling.OrderShift

/-!
# The order from scratch

Units get the indices from the end. A unit is taken when all its successors have
been, and on a graph without cycles all units are.
-/

namespace SmlnjLlvm.TopologicalSort

open Relation Loop Scheduling

def Edge (s : DAG Nat) (x y : Nat) : Prop := ∃ D ∈ (s x).Succs, D.SUnit = y

/-- An edge between units of the vector. -/
def Link (s : DAG Nat) (DAGSize x y : Nat) : Prop := Edge s x y ∧ x < DAGSize ∧ y < DAGSize

/-- Edges go from units of the vector to such units or to the exit unit, without cycles. -/
structure Formed (s : DAG Nat) (DAGSize : Nat) (ExitSU : Option Nat) : Prop where
  mirrored : Mirrored s
  acyclic : ∀ x, ¬ TransGen (Link s DAGSize) x x
  size_le : DAGSize ≤ BoundaryID
  exit : ∀ x ∈ ExitSU, x = BoundaryID
  ends : ∀ x y, Edge s x y → x < DAGSize ∧ (y < DAGSize ∨ y ∈ ExitSU)

/-- Edges between units of the vector go forward. -/
def Sorted (s : DAG Nat) (t : Topo) : Prop :=
  ∀ x y, Edge s x y → y < t.size → t.Node2Index x < t.Node2Index y

/-- The number of the edges that come from the unit. -/
def edgesFrom (x : Nat) (l : List (SDep Nat)) : Nat := l.countP fun D => decide (D.SUnit = x)

theorem edgesFrom_cons (x : Nat) (D : SDep Nat) (l : List (SDep Nat)) :
    edgesFrom x (D :: l) = edgesFrom x l + if D.SUnit = x then 1 else 0 := by
  simp only [edgesFrom, List.countP_cons, decide_eq_true_eq]

theorem releasePreds_spec {DAGSize : Nat} (l : List (SDep Nat)) {t : Topo} {W : List Nat}
    (h : ∀ n < DAGSize, edgesFrom n l ≤ t.Node2Index n) :
    ∃ N2I pushed, l.foldl (releasePred DAGSize) (t, W) =
        ({ t with Node2Index := N2I }, pushed ++ W) ∧
      (∀ n < DAGSize, N2I n = t.Node2Index n - edgesFrom n l) ∧ pushed.Nodup ∧
      ∀ n, n ∈ pushed ↔ n < DAGSize ∧ 0 < edgesFrom n l ∧ t.Node2Index n = edgesFrom n l := by
  induction l generalizing t W with
  | nil =>
    refine ⟨t.Node2Index, [], rfl, fun _ _ => rfl, List.nodup_nil, fun n => ?_⟩
    simp [edgesFrom]
  | cons D l ih =>
    rw [List.foldl_cons, releasePred]
    by_cases hD : D.SUnit < DAGSize
    · simp only [if_pos hD]
      have hself := h D.SUnit hD
      rw [edgesFrom_cons, if_pos rfl] at hself
      have hless : ∀ n < DAGSize, edgesFrom n l ≤
          Function.update t.Node2Index D.SUnit (t.Node2Index D.SUnit - 1) n := by
        intro n hn
        by_cases heq : n = D.SUnit
        · rw [heq, Function.update_self]
          omega
        · have hle := h n hn
          rw [edgesFrom_cons, if_neg (Ne.symm heq)] at hle
          rwa [Function.update_of_ne heq]
      obtain ⟨N2I, pushed, hfold, hindex, hnodup, hmem⟩ := ih
        (t := { t with
          Node2Index := Function.update t.Node2Index D.SUnit (t.Node2Index D.SUnit - 1) })
        (W := if t.Node2Index D.SUnit = 1 then D.SUnit :: W else W) hless
      simp only at hindex hmem
      have hlater : D.SUnit ∈ pushed ↔
          0 < edgesFrom D.SUnit l ∧ t.Node2Index D.SUnit = edgesFrom D.SUnit l + 1 := by
        rw [hmem, Function.update_self]
        constructor
        · rintro ⟨-, hpos, heq⟩
          exact ⟨hpos, by omega⟩
        · rintro ⟨hpos, heq⟩
          exact ⟨hD, hpos, by omega⟩
      have hcount : edgesFrom D.SUnit (D :: l) = edgesFrom D.SUnit l + 1 := by
        rw [edgesFrom_cons, if_pos rfl]
      have hother {n : Nat} (hn : n ≠ D.SUnit) : edgesFrom n (D :: l) = edgesFrom n l ∧
          Function.update t.Node2Index D.SUnit (t.Node2Index D.SUnit - 1) n = t.Node2Index n := by
        rw [edgesFrom_cons, if_neg (Ne.symm hn), Function.update_of_ne hn]
        exact ⟨rfl, rfl⟩
      refine ⟨N2I, pushed ++ if t.Node2Index D.SUnit = 1 then [D.SUnit] else [], ?_,
        fun n hn => ?_, ?_, fun n => ?_⟩
      · rw [hfold, List.append_assoc]
        split <;> rfl
      · rw [hindex n hn]
        by_cases heq : n = D.SUnit
        · rw [heq, hcount, Function.update_self]
          omega
        · rw [(hother heq).1, (hother heq).2]
      · split
        · rename_i hone
          rw [List.nodup_append]
          refine ⟨hnodup, List.nodup_singleton _, fun n hn m hm => ?_⟩
          rw [List.mem_singleton.mp hm]
          rintro rfl
          have hpos := hlater.mp hn
          omega
        · rwa [List.append_nil]
      · rw [List.mem_append]
        by_cases heq : n = D.SUnit
        · rw [heq, hlater, hcount]
          split
          · simp only [List.mem_singleton, true_iff, or_true]
            omega
          · simp only [List.not_mem_nil, or_false]
            omega
        · have hlast : n ∉ if t.Node2Index D.SUnit = 1 then [D.SUnit] else [] := by
            split
            · exact fun hn => heq (List.mem_singleton.mp hn)
            · exact List.not_mem_nil
          rw [hmem, (hother heq).1, (hother heq).2]
          exact or_iff_left hlast
    · simp only [if_neg hD]
      have hother {n : Nat} (hn : n < DAGSize) : edgesFrom n (D :: l) = edgesFrom n l := by
        rw [edgesFrom_cons, if_neg (by rintro rfl; exact hD hn), Nat.add_zero]
      obtain ⟨N2I, pushed, hfold, hindex, hnodup, hmem⟩ := ih (t := t) (W := W) fun n hn => by
        rw [← hother hn]
        exact h n hn
      refine ⟨N2I, pushed, hfold, fun n hn => ?_, hnodup, fun n => ?_⟩
      · rw [hindex n hn, hother hn]
      · rw [hmem n]
        constructor
        · rintro ⟨hn, hrest⟩
          exact ⟨hn, by rwa [hother hn]⟩
        · rintro ⟨hn, hrest⟩
          exact ⟨hn, by rwa [hother hn] at hrest⟩

/-! ## Taking units -/

/-- The number of the edges to units that have not been taken. -/
def edgesLeft (s : DAG Nat) (taken : Finset Nat) (n : Nat) : Nat :=
  (s n).Succs.countP fun D => decide (D.SUnit ∉ taken)

theorem edgesLeft_eq_zero {s : DAG Nat} {taken : Finset Nat} {n : Nat} :
    edgesLeft s taken n = 0 ↔ ∀ y, Edge s n y → y ∈ taken := by
  rw [edgesLeft, List.countP_eq_zero]
  constructor
  · rintro h y ⟨D, hD, rfl⟩
    simpa using h D hD
  · intro h D hD
    simpa using h D.SUnit ⟨D, hD, rfl⟩

theorem edgesLeft_insert {s : DAG Nat} (h : Mirrored s) {taken : Finset Nat} {SU : Nat}
    (hSU : SU ∉ taken) (n : Nat) :
    edgesLeft s taken n = edgesLeft s (insert SU taken) n + edgesFrom n (s SU).Preds := by
  rw [edgesFrom, h.countP_eq, edgesLeft, edgesLeft]
  induction (s n).Succs with
  | nil => rfl
  | cons D l ih =>
    have hone : (if decide (D.SUnit ∉ taken) = true then 1 else 0) =
        (if decide (D.SUnit ∉ insert SU taken) = true then 1 else 0) +
          if decide (D.SUnit = SU) = true then 1 else 0 := by
      by_cases hD : D.SUnit = SU
      · simp [hD, hSU]
      · simp [hD]
    rw [List.countP_cons, List.countP_cons, List.countP_cons]
    omega

theorem edge_iff_pred {s : DAG Nat} (h : Mirrored s) {x y : Nat} :
    Edge s x y ↔ 0 < edgesFrom x (s y).Preds := by
  rw [edgesFrom, h.countP_eq, List.countP_pos_iff]
  simp only [Edge, decide_eq_true_eq]

/-- Between turns, `taken` are the units that have been taken. -/
structure Taking (s : DAG Nat) (DAGSize : Nat) (t₀ : Topo) (taken : Finset Nat)
    (p : (Topo × Nat) × List Nat) : Prop where
  rest : p.1.1 = { t₀ with Index2Node := p.1.1.Index2Node, Node2Index := p.1.1.Node2Index }
  nodup : p.2.Nodup
  fresh : ∀ x ∈ p.2, x ∉ taken
  bounds : ∀ x ∈ p.2, x < DAGSize ∨ x ∈ t₀.ExitSU
  exit : ∀ x ∈ t₀.ExitSU, x ∈ p.2 ∨ x ∈ taken
  ready : ∀ x < DAGSize, x ∉ taken → (x ∈ p.2 ↔ edgesLeft s taken x = 0)
  degree : ∀ x < DAGSize, x ∉ taken → p.1.1.Node2Index x = edgesLeft s taken x
  card : p.1.2 + (taken.filter (· < DAGSize)).card = DAGSize
  placed : ∀ x ∈ taken, x < DAGSize → p.1.2 ≤ p.1.1.Node2Index x ∧
    p.1.1.Node2Index x < DAGSize ∧ p.1.1.Index2Node (p.1.1.Node2Index x) = x
  succs : ∀ x ∈ taken, ∀ y, Edge s x y →
    y ∈ taken ∧ (y < DAGSize → p.1.1.Node2Index x < p.1.1.Node2Index y)

/-- The exit unit is taken, or an index is given away. -/
def takingMeasure (DAGSize : Nat) (p : (Topo × Nat) × List Nat) : Nat :=
  p.1.2 + p.2.countP fun x => decide (DAGSize ≤ x)

section

variable {s : DAG Nat} {DAGSize : Nat} {t₀ : Topo} {taken : Finset Nat}

theorem Taking.id_pos {p : (Topo × Nat) × List Nat} (h : Taking s DAGSize t₀ taken p) {SU : Nat}
    (hSU : SU < DAGSize) (hfresh : SU ∉ taken) : 0 < p.1.2 := by
  have hcard := h.card
  have hlt : (taken.filter (· < DAGSize)).card < (Finset.range DAGSize).card := by
    apply Finset.card_lt_card
    rw [Finset.ssubset_iff_of_subset]
    · refine ⟨SU, Finset.mem_range.mpr hSU, fun hmem => hfresh (Finset.mem_filter.mp hmem).1⟩
    · intro x hx
      exact Finset.mem_range.mpr (Finset.mem_filter.mp hx).2
  rw [Finset.card_range] at hlt
  omega

/-- What happens to the vectors and the next index when a unit is taken. -/
structure Took (DAGSize SU : Nat) (t t' : Topo) (Id Id' : Nat) : Prop where
  rest : t' = { t with Index2Node := t'.Index2Node, Node2Index := t'.Node2Index }
  self : SU < DAGSize → Id = Id' + 1 ∧ t'.Node2Index SU = Id' ∧ t'.Index2Node Id' = SU
  exit : DAGSize ≤ SU → Id = Id'
  index : ∀ x, x ≠ SU → t'.Node2Index x = t.Node2Index x
  node : ∀ i, Id ≤ i → t'.Index2Node i = t.Index2Node i

theorem took {t : Topo} {Id SU : Nat} (hId : SU < DAGSize → 0 < Id) :
    Took DAGSize SU t (if SU < DAGSize then (Allocate t SU (Id - 1), Id - 1) else (t, Id)).1 Id
      (if SU < DAGSize then (Allocate t SU (Id - 1), Id - 1) else (t, Id)).2 := by
  by_cases hSU : SU < DAGSize
  · rw [if_pos hSU]
    refine ⟨rfl, fun _ => ⟨by show Id = Id - 1 + 1; omega, ?_, ?_⟩,
      fun hge => absurd hSU (Nat.not_lt.mpr hge), fun x hx => ?_, fun i hi => ?_⟩
    · exact Function.update_self SU (Id - 1) t.Node2Index
    · exact Function.update_self (Id - 1) SU t.Index2Node
    · exact Function.update_of_ne hx (Id - 1) t.Node2Index
    · have hne : i ≠ Id - 1 := by omega
      exact Function.update_of_ne hne SU t.Index2Node
  · rw [if_neg hSU]
    exact ⟨rfl, fun hlt => absurd hlt hSU, fun _ => rfl, fun _ _ => rfl, fun _ _ => rfl⟩

theorem initTurn_spec (hs : Formed s DAGSize t₀.ExitSU) {p : (Topo × Nat) × List Nat}
    (h : Taking s DAGSize t₀ taken p) {SU : Nat} {WorkList : List Nat} (hp : p.2 = SU :: WorkList) :
    ∃ p', initTurn DAGSize s p = some (.next p') ∧
      Taking s DAGSize t₀ (insert SU taken) p' ∧
        takingMeasure DAGSize p' < takingMeasure DAGSize p := by
  obtain ⟨⟨t, Id⟩, W⟩ := p
  simp only at hp
  subst hp
  have hmem : SU ∈ SU :: WorkList := List.mem_cons_self
  have hfresh := h.fresh SU hmem
  have hId (hSU : SU < DAGSize) : 0 < Id := h.id_pos hSU hfresh
  have htook := took (t := t) hId
  obtain ⟨q, hq⟩ : ∃ q, q = if SU < DAGSize then (Allocate t SU (Id - 1), Id - 1) else (t, Id) :=
    ⟨_, rfl⟩
  rw [← hq] at htook
  have hleft (n : Nat) := edgesLeft_insert hs.mirrored hfresh n
  -- Units that were taken have no edge to this one.
  have hnone {n : Nat} (hn : n ∈ insert SU taken) : edgesFrom n (s SU).Preds = 0 := by
    by_contra hpos
    have hedge := (edge_iff_pred hs.mirrored).mpr (Nat.pos_of_ne_zero hpos)
    rcases Finset.mem_insert.mp hn with rfl | hn
    · have hlt := (hs.ends n n hedge).1
      exact hs.acyclic n (TransGen.single ⟨hedge, hlt, hlt⟩)
    · exact hfresh (h.succs n hn SU hedge).1
  have hother {n : Nat} (hn : n ∉ insert SU taken) : n ≠ SU ∧ n ∉ taken := by
    rwa [Finset.mem_insert, not_or] at hn
  have hqdegree {n : Nat} (hn : n < DAGSize) (hnot : n ∉ insert SU taken) :
      q.1.Node2Index n = edgesLeft s (insert SU taken) n + edgesFrom n (s SU).Preds := by
    rw [htook.index n (hother hnot).1, h.degree n hn (hother hnot).2, hleft n]
  have hdegree {n : Nat} (hn : n < DAGSize) : edgesFrom n (s SU).Preds ≤ q.1.Node2Index n := by
    by_cases htaken : n ∈ insert SU taken
    · rw [hnone htaken]
      exact Nat.zero_le _
    · rw [hqdegree hn htaken]
      exact Nat.le_add_left _ _
  obtain ⟨N2I, pushed, hfold, hindex, hnodup, hpushed⟩ :=
    releasePreds_spec (s SU).Preds (t := q.1) (W := WorkList)
      fun n (hn : n < DAGSize) => hdegree hn
  have hnodupW := List.nodup_cons.mp h.nodup
  have hfreshPushed {n : Nat} (hn : n ∈ pushed) : n ∉ insert SU taken := fun hmem => by
    have hpos := ((hpushed n).mp hn).2.1
    rw [hnone hmem] at hpos
    exact absurd hpos (Nat.lt_irrefl 0)
  have hwait {n : Nat} (hn : n < DAGSize) (hmem : n ∈ WorkList) :
      edgesLeft s (insert SU taken) n = 0 ∧ edgesFrom n (s SU).Preds = 0 := by
    have hmem' := List.mem_cons_of_mem SU hmem
    have hzero := (h.ready n hn (h.fresh n hmem')).mp hmem'
    rw [hleft n] at hzero
    omega
  refine ⟨(({ q.1 with Node2Index := N2I }, q.2), pushed ++ WorkList), ?_, ?_, ?_⟩
  · unfold initTurn
    simp only
    rw [← hq, hfold]
  · refine ⟨?_, ?_, fun x hx => ?_, fun x hx => ?_, fun x hx => ?_, fun x hx hnot => ?_,
      fun x hx hnot => ?_, ?_, fun x hx hlt => ?_, fun x hx y hedge => ?_⟩
    · have hrest : t = _ := h.rest
      rw [htook.rest, hrest]
    · refine List.Nodup.append hnodup hnodupW.2 fun n hn hmem => ?_
      obtain ⟨hlt, hpos, -⟩ := (hpushed n).mp hn
      rw [(hwait hlt hmem).2] at hpos
      exact absurd hpos (Nat.lt_irrefl 0)
    · rcases List.mem_append.mp hx with hx | hx
      · exact hfreshPushed hx
      · rw [Finset.mem_insert, not_or]
        exact ⟨fun heq => hnodupW.1 (heq ▸ hx), h.fresh x (List.mem_cons_of_mem SU hx)⟩
    · rcases List.mem_append.mp hx with hx | hx
      · exact Or.inl ((hpushed x).mp hx).1
      · exact h.bounds x (List.mem_cons_of_mem SU hx)
    · rcases h.exit x hx with hmem' | htaken
      · rcases List.mem_cons.mp hmem' with rfl | hmem'
        · exact Or.inr (Finset.mem_insert_self x taken)
        · exact Or.inl (List.mem_append_right pushed hmem')
      · exact Or.inr (Finset.mem_insert_of_mem htaken)
    · have hready := h.ready x hx (hother hnot).2
      have hq := hqdegree hx hnot
      rw [List.mem_cons, or_iff_right (hother hnot).1, hleft x] at hready
      rw [List.mem_append, hpushed, hready]
      omega
    · dsimp only
      rw [hindex x hx, hqdegree hx hnot, Nat.add_sub_cancel]
    · have hcard := h.card
      simp only at hcard ⊢
      by_cases hlt : SU < DAGSize
      · rw [Finset.filter_insert, if_pos hlt, Finset.card_insert_of_notMem
          fun hin => hfresh (Finset.mem_filter.mp hin).1]
        have hnext := (htook.self hlt).1
        omega
      · rw [Finset.filter_insert, if_neg hlt, ← htook.exit (Nat.not_lt.mp hlt)]
        exact hcard
    · have hcard := h.card
      dsimp only at hcard ⊢
      rw [hindex x hlt, hnone hx, Nat.sub_zero]
      rcases Finset.mem_insert.mp hx with rfl | htaken
      · obtain ⟨hnext, hindexSU, hnodeSU⟩ := htook.self hlt
        rw [hindexSU]
        exact ⟨Nat.le_refl _, by omega, hnodeSU⟩
      · obtain ⟨hle, hbound, hnode⟩ := h.placed x htaken hlt
        have hne : x ≠ SU := fun heq => hfresh (heq ▸ htaken)
        have hmono : q.2 ≤ Id := by
          by_cases hSU : SU < DAGSize
          · rw [(htook.self hSU).1]
            exact Nat.le_succ _
          · exact Nat.le_of_eq (htook.exit (Nat.not_lt.mp hSU)).symm
        rw [htook.index x hne, htook.node _ hle]
        exact ⟨Nat.le_trans hmono hle, hbound, hnode⟩
    · have hxlt := (hs.ends x y hedge).1
      dsimp only
      rw [hindex x hxlt, hnone hx, Nat.sub_zero]
      rcases Finset.mem_insert.mp hx with rfl | htaken
      · have hy := edgesLeft_eq_zero.mp ((h.ready x hxlt hfresh).mp hmem) y hedge
        refine ⟨Finset.mem_insert_of_mem hy, fun hylt => ?_⟩
        obtain ⟨hnext, hindexSU, -⟩ := htook.self hxlt
        have hle := (h.placed y hy hylt).1
        have hne : y ≠ x := fun heq => hfresh (heq ▸ hy)
        rw [hindex y hylt, hnone (Finset.mem_insert_of_mem hy), Nat.sub_zero, htook.index y hne,
          hindexSU]
        simp only at hle
        omega
      · obtain ⟨hy, hless⟩ := h.succs x htaken y hedge
        refine ⟨Finset.mem_insert_of_mem hy, fun hylt => ?_⟩
        have hxne : x ≠ SU := fun heq => hfresh (heq ▸ htaken)
        have hyne : y ≠ SU := fun heq => hfresh (heq ▸ hy)
        rw [hindex y hylt, hnone (Finset.mem_insert_of_mem hy), Nat.sub_zero, htook.index x hxne,
          htook.index y hyne]
        exact hless hylt
  · have hzero : pushed.countP (fun x => decide (DAGSize ≤ x)) = 0 := by
      rw [List.countP_eq_zero]
      intro x hx
      simpa using ((hpushed x).mp hx).1
    unfold takingMeasure
    simp only
    rw [List.countP_append, hzero, Nat.zero_add, List.countP_cons]
    by_cases hlt : SU < DAGSize
    · have hnext := (htook.self hlt).1
      omega
    · rw [if_pos (by simpa using Nat.not_lt.mp hlt), ← htook.exit (Nat.not_lt.mp hlt)]
      omega

theorem Formed.induction {ExitSU : Option Nat} (hs : Formed s DAGSize ExitSU) {P : Nat → Prop}
    (hstep : ∀ x < DAGSize, (∀ y, Link s DAGSize x y → P y) → P x) (x : Nat) (hx : x < DAGSize) :
    P x := by
  let before (a b : Fin DAGSize) : Prop := TransGen (Link s DAGSize) b a
  have hirrefl : Std.Irrefl before := ⟨fun a => hs.acyclic a⟩
  have hwf : WellFounded before := Finite.wellFounded_of_trans_of_irrefl before
  suffices h : ∀ a : Fin DAGSize, P a from h ⟨x, hx⟩
  intro a
  induction a using hwf.induction with
  | _ a ih => exact hstep a a.isLt fun y hlink => ih ⟨y, hlink.2.2⟩ (TransGen.single hlink)

theorem Taking.all (hs : Formed s DAGSize t₀.ExitSU) {p : (Topo × Nat) × List Nat}
    (h : Taking s DAGSize t₀ taken p) (hp : p.2 = []) : ∀ x < DAGSize, x ∈ taken := by
  refine hs.induction fun x hx hsuccs => ?_
  by_contra hnot
  have hleft : edgesLeft s taken x = 0 := by
    rw [edgesLeft_eq_zero]
    intro y hedge
    rcases (hs.ends x y hedge).2 with hy | hy
    · exact hsuccs y ⟨hedge, hx, hy⟩
    · exact (h.exit y hy).resolve_left (hp ▸ List.not_mem_nil)
  exact absurd ((h.ready x hx hnot).mpr hleft) (hp ▸ List.not_mem_nil)

/-- What the loop leaves behind. -/
structure Ordered (s : DAG Nat) (t₀ t : Topo) : Prop where
  rest : t = { t₀ with Index2Node := t.Index2Node, Node2Index := t.Node2Index }
  inverse : Inverse t
  sorted : Sorted s t

theorem Taking.ordered (hs : Formed s DAGSize t₀.ExitSU) (hsize : t₀.size = DAGSize)
    {p : (Topo × Nat) × List Nat} (h : Taking s DAGSize t₀ taken p) (hp : p.2 = []) :
    Ordered s t₀ p.1.1 := by
  have hall := h.all hs hp
  have hsize' : p.1.1.size = DAGSize := by rw [h.rest, hsize]
  have hplaced (x : Nat) (hx : x < DAGSize) := (h.placed x (hall x hx) hx).2
  have hmaps : ∀ x < DAGSize, p.1.1.Node2Index x < DAGSize := fun x hx => (hplaced x hx).1
  have hinj : ∀ x < DAGSize, ∀ y < DAGSize, p.1.1.Node2Index x = p.1.1.Node2Index y → x = y := by
    intro x hx y hy heq
    rw [← (hplaced x hx).2, heq, (hplaced y hy).2]
  refine ⟨h.rest, ⟨?_, ?_, ?_, ?_⟩, fun x y hedge hy => ?_⟩
  all_goals rw [hsize'] at *
  · exact hmaps
  · intro i hi
    obtain ⟨x, hx, rfl⟩ := StablePartition.exists_eq_of_injOn hmaps hinj hi
    rw [(hplaced x hx).2]
    exact hx
  · exact fun x hx => (hplaced x hx).2
  · intro i hi
    obtain ⟨x, hx, rfl⟩ := StablePartition.exists_eq_of_injOn hmaps hinj hi
    rw [(hplaced x hx).2]
  · exact (h.succs x (hall x (hs.ends x y hedge).1) y hedge).2 hy

theorem Taking.start {ExitSU : Option Nat} (hs : Formed s DAGSize ExitSU) (t : Topo)
    (hexit : t.ExitSU = ExitSU) (hdegree : ∀ x < DAGSize, t.Node2Index x = (s x).Succs.length) :
    Taking s DAGSize t ∅ ((t, DAGSize),
      ((List.range DAGSize).filter fun n => (s n).Succs.isEmpty).reverse ++ t.ExitSU.toList) := by
  subst hexit
  have hempty (x : Nat) : edgesLeft s ∅ x = (s x).Succs.length := by
    simp [edgesLeft]
  have hleaf (x : Nat) : x ∈ ((List.range DAGSize).filter fun n => (s n).Succs.isEmpty).reverse ↔
      x < DAGSize ∧ (s x).Succs.length = 0 := by
    simp [List.isEmpty_iff]
  have hwait (x : Nat) : x ∈ t.ExitSU.toList ↔ x ∈ t.ExitSU := by
    rw [Option.mem_toList]
    rfl
  have hnone {x : Nat} (hx : x ∈ t.ExitSU) : DAGSize ≤ x := by
    rw [hs.exit x hx]
    exact hs.size_le
  refine ⟨rfl, ?_, fun x _ => Finset.notMem_empty x, fun x hx => ?_, fun x hx => ?_,
    fun x hx _ => ?_, fun x hx _ => ?_, ?_, fun x hx => absurd hx (Finset.notMem_empty x),
    fun x hx => absurd hx (Finset.notMem_empty x)⟩
  · refine List.Nodup.append (List.nodup_reverse.mpr (List.nodup_range.filter _)) ?_ ?_
    · cases t.ExitSU <;> simp
    · intro x hx hx'
      have hlt := ((hleaf x).mp hx).1
      have hge := hnone ((hwait x).mp hx')
      omega
  · rcases List.mem_append.mp hx with hx | hx
    · exact Or.inl ((hleaf x).mp hx).1
    · exact Or.inr ((hwait x).mp hx)
  · exact Or.inl (List.mem_append_right _ ((hwait x).mpr hx))
  · have hnot : x ∉ t.ExitSU.toList := fun hmem => by
      have hge := hnone ((hwait x).mp hmem)
      omega
    rw [List.mem_append, or_iff_left hnot, hleaf, hempty]
    exact and_iff_right hx
  · rw [hdegree x hx, hempty]
  · simp

theorem InitDAGTopologicalSorting_ordered {t : Topo} (hs : Formed s DAGSize t.ExitSU) :
    ∃ t' enough, (∀ fuel, enough < fuel → InitDAGTopologicalSorting fuel DAGSize s t = some t') ∧
      Inverse t' ∧ Sorted s t' ∧ t'.size = DAGSize ∧ t'.ExitSU = t.ExitSU ∧ t'.Dirty = false ∧
      t'.Updates = [] := by
  obtain ⟨t₀, ht₀⟩ : ∃ t₀ : Topo, t₀ = { t with
    Dirty := false
    Updates := []
    size := DAGSize
    Node2Index := fun n => if n < DAGSize then (s n).Succs.length else t.Node2Index n } := ⟨_, rfl⟩
  have hexit : t₀.ExitSU = t.ExitSU := by rw [ht₀]
  have hsize : t₀.size = DAGSize := by rw [ht₀]
  have hformed : Formed s DAGSize t₀.ExitSU := hexit ▸ hs
  have hstart := Taking.start hformed t₀ rfl fun x hx => by
    rw [ht₀]
    exact if_pos hx
  have hturn : ∀ p, (∃ taken, Taking s DAGSize t₀ taken p) →
      ∃ r, initTurn DAGSize s p = some r ∧ r.Sat
        (fun p' => (∃ taken, Taking s DAGSize t₀ taken p') ∧
          takingMeasure DAGSize p' < takingMeasure DAGSize p) (Ordered s t₀) := by
    rintro p ⟨taken, hp⟩
    cases hW : p.2 with
    | nil =>
      refine ⟨.exit p.1.1, ?_, hp.ordered hformed hsize hW⟩
      unfold initTurn
      rw [hW]
    | cons SU WorkList =>
      obtain ⟨p', hturn, hp', hless⟩ := initTurn_spec hformed hp hW
      exact ⟨.next p', hturn, ⟨_, hp'⟩, hless⟩
  obtain ⟨t', hloop, hordered⟩ := loop_total (initTurn DAGSize s) (takingMeasure DAGSize) hturn
    ⟨∅, hstart⟩
  generalize takingMeasure DAGSize _ = enough at hloop
  have hrest := hordered.rest
  have hsize' : t'.size = DAGSize := by rw [hrest, hsize]
  refine ⟨t', enough, fun fuel hfuel => ?_, hordered.inverse, hordered.sorted, hsize', ?_, ?_, ?_⟩
  · have hassert : ∀ SU < DAGSize, ∀ PD ∈ (s SU).Preds,
        t'.Node2Index PD.SUnit < t'.Node2Index SU := by
      intro SU hSU PD hPD
      obtain ⟨D, hD, hend⟩ := hs.mirrored.linked .depth SU PD hPD
      exact hordered.sorted PD.SUnit SU ⟨D, hD, hend⟩ (hsize' ▸ hSU)
    unfold InitDAGTopologicalSorting
    simp only [Option.bind_eq_bind]
    rw [← ht₀, ← hexit, hloop fuel hfuel, Option.bind_some, guard, if_pos hassert]
    rfl
  · rw [hrest, hexit]
  · rw [hrest, ht₀]
  · rw [hrest, ht₀]

end

end SmlnjLlvm.TopologicalSort
