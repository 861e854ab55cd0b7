import Mathlib.Order.Bounds.Basic
import SmlnjLlvm.Scheduling.DirtyFlags

/-!
# Computing the longest paths

On a graph without cycles the worklist ends with a current value, and a current
value is the latency of the longest path.
-/

namespace SmlnjLlvm.Scheduling

open Loop

variable {V : Type}

/-- Each unit comes after those that its value is computed from. -/
def Ranked (side : Side) (s : DAG V) (rank : V → Nat) : Prop :=
  ∀ x, ∀ D ∈ (s x).ins side, rank D.SUnit < rank x

/-- There is a path to the unit, against the side's direction, with this sum of latencies. -/
inductive PathTo (side : Side) (s : DAG V) : V → Nat → Prop where
  | nil (x : V) : PathTo side s x 0
  | cons {x : V} {k : Nat} (D : SDep V) (hD : D ∈ (s x).ins side) (h : PathTo side s D.SUnit k) :
      PathTo side s x (k + D.Latency)

/-- No sum of latencies along a path to the unit exceeds 32 bits. -/
def PathsFit (side : Side) (s : DAG V) (x : V) : Prop := ∀ k, PathTo side s x k → k < 2 ^ 32

theorem PathsFit.before {side : Side} {s : DAG V} {x : V} (h : PathsFit side s x) {D : SDep V}
    (hD : D ∈ (s x).ins side) : PathsFit side s D.SUnit := by
  intro k hpath
  have hlt := h _ (PathTo.cons D hD hpath)
  omega

theorem PathTo.congr {side : Side} {s s' : DAG V} (h : ∀ x, (s' x).ins side = (s x).ins side)
    {x : V} {k : Nat} (hpath : PathTo side s x k) : PathTo side s' x k := by
  induction hpath with
  | nil x => exact PathTo.nil x
  | cons D hD _ ih => exact PathTo.cons D (h _ ▸ hD) ih

theorem maxOver_isGreatest {side : Side} {s : DAG V} {edges : List (SDep V)}
    (hcurrent : ∀ D ∈ edges, (s D.SUnit).current side = true)
    (hfits : ∀ D ∈ edges, (s D.SUnit).value side + D.Latency < 2 ^ 32) :
    IsGreatest {k | k = 0 ∨ ∃ D ∈ edges, k = (s D.SUnit).value side + D.Latency}
      (maxOver side s edges) := by
  unfold maxOver
  induction edges using List.reverseRecOn with
  | nil =>
    refine ⟨Or.inl rfl, ?_⟩
    rintro k (rfl | ⟨D, hD, _⟩)
    · exact Nat.le_refl _
    · cases hD
  | append_singleton edges D ih =>
    have hD : D ∈ edges ++ [D] := List.mem_append_right _ (List.mem_singleton_self D)
    obtain ⟨hmem, hmax⟩ := ih (fun E hE => hcurrent E (List.mem_append_left _ hE))
      (fun E hE => hfits E (List.mem_append_left _ hE))
    rw [List.foldl_append, List.foldl_cons, List.foldl_nil, if_pos (hcurrent D hD),
      Nat.mod_eq_of_lt (hfits D hD)]
    refine ⟨?_, ?_⟩
    · rcases Nat.le_total (edges.foldl _ 0) ((s D.SUnit).value side + D.Latency) with hle | hle
      · rw [Nat.max_eq_right hle]
        exact Or.inr ⟨D, hD, rfl⟩
      · rw [Nat.max_eq_left hle]
        rcases hmem with hzero | ⟨E, hE, heq⟩
        · exact Or.inl hzero
        · exact Or.inr ⟨E, List.mem_append_left _ hE, heq⟩
    · rintro k (rfl | ⟨E, hE, rfl⟩)
      · exact Nat.zero_le _
      · rcases List.mem_append.mp hE with hE | hE
        · exact Nat.le_trans (hmax (Or.inr ⟨E, hE, rfl⟩)) (Nat.le_max_left _ _)
        · rw [List.mem_singleton.mp hE]
          exact Nat.le_max_right _ _

theorem Coherent.isGreatest {side : Side} {s : DAG V} (h : Coherent side s) {rank : V → Nat}
    (hrank : Ranked side s rank) {x : V} (hx : (s x).current side = true) :
    IsGreatest {k | PathTo side s x k} ((s x).value side) := by
  induction hn : rank x using Nat.strongRecOn generalizing x with
  | ind n ih =>
    obtain ⟨hbefore, hvalue⟩ := h x hx
    have hlongest (D : SDep V) (hD : D ∈ (s x).ins side) :=
      ih (rank D.SUnit) (hn ▸ hrank x D hD) (hbefore D hD).1 rfl
    obtain ⟨hmem, hmax⟩ := maxOver_isGreatest (fun D hD => (hbefore D hD).1)
      (fun D hD => (hbefore D hD).2)
    rw [← hvalue] at hmem hmax
    refine ⟨?_, ?_⟩
    · rcases hmem with hzero | ⟨D, hD, heq⟩
      · rw [hzero]
        exact PathTo.nil x
      · rw [heq]
        exact PathTo.cons D hD (hlongest D hD).1
    · rintro k (_ | ⟨D, hD, hpath⟩)
      · exact Nat.zero_le _
      · exact Nat.le_trans (Nat.add_le_add_right ((hlongest D hD).2 hpath) _)
          (hmax (Or.inr ⟨D, hD, rfl⟩))

/-! ## Computing a value -/

/-- More values are current, those that were are unchanged, and the graph is the same. -/
def Cached (side : Side) (s s' : DAG V) : Prop :=
  ∀ x, ∃ b k, s' x = ((s x).setValue side k).setCurrent side b ∧
    ((s x).current side = true → b = true ∧ k = (s x).value side)

namespace Cached

variable {side : Side} {s s' : DAG V}

theorem refl (side : Side) (s : DAG V) : Cached side s s := by
  intro x
  refine ⟨(s x).current side, (s x).value side, ?_, fun h => ⟨h, rfl⟩⟩
  cases side <;> rfl

theorem ins (h : Cached side s s') (x : V) (side' : Side) : (s' x).ins side' = (s x).ins side' := by
  obtain ⟨b, k, heq, _⟩ := h x
  rw [heq, SUnit.ins_setCurrent, SUnit.ins_setValue]

theorem current (h : Cached side s s') {x : V} (hx : (s x).current side = true) :
    (s' x).current side = true := by
  obtain ⟨b, k, heq, hkept⟩ := h x
  rw [heq, SUnit.current_setCurrent]
  exact (hkept hx).1

theorem set [DecidableEq V] (h : Cached side s s') {n : V} (hn : (s' n).current side = false)
    (k : Nat) : Cached side s
      ((s'.modify n (SUnit.setValue side k)).modify n (SUnit.setCurrent side true)) := by
  intro x
  by_cases hx : x = n
  · subst hx
    obtain ⟨b, k', heq, hkept⟩ := h x
    refine ⟨true, k, ?_, ?_⟩
    · rw [DAG.modify_self, DAG.modify_self, heq]
      cases side <;> rfl
    · intro hold
      rw [h.current hold] at hn
      cases hn
  · rw [DAG.modify_of_ne _ _ hx, DAG.modify_of_ne _ _ hx]
    exact h x

end Cached

/-- Between turns, the unit is current or still on the worklist. -/
structure Computing (side : Side) (s₀ : DAG V) (n : V) (p : DAG V × List V) : Prop where
  frame : Cached side s₀ p.1
  coherent : Coherent side p.1
  pending : n ∈ p.2 ∨ (p.1 n).current side = true
  fits : ∀ x ∈ p.2, PathsFit side s₀ x

/-- The rank of the unit on top. -/
def topRank (rank : V → Nat) : List V → Nat
  | [] => 0
  | x :: _ => rank x

/-- The units that are not current decrease, or the entries that are current, or the top rank. -/
def computeMeasure (side : Side) (rank : V → Nat) [Fintype V] (p : DAG V × List V) :
    Nat × Nat × Nat :=
  (Fintype.card V - currentCount side p.1, p.2.countP fun x => (p.1 x).current side,
    topRank rank p.2)

theorem Coherent.set [DecidableEq V] {side : Side} {s : DAG V} (h : Coherent side s) {n : V}
    {rank : V → Nat} (hrank : Ranked side s rank) (hn : (s n).current side = false)
    (hbefore : ∀ D ∈ (s n).ins side, (s D.SUnit).current side = true)
    (hfits : PathsFit side s n) :
    Coherent side ((s.modify n (SUnit.setValue side (maxOver side s ((s n).ins side)))).modify n
      (SUnit.setCurrent side true)) := by
  intro x
  have hchanged {y : V} (hy : y ≠ n) :
      ((s.modify n (SUnit.setValue side (maxOver side s ((s n).ins side)))).modify n
        (SUnit.setCurrent side true)) y = s y := by
    rw [DAG.modify_of_ne _ _ hy, DAG.modify_of_ne _ _ hy]
  by_cases hx : x = n
  · subst hx
    have hne (D : SDep V) (hD : D ∈ (s x).ins side) : D.SUnit ≠ x := by
      intro heq
      have hlt := hrank x D hD
      rw [heq] at hlt
      exact Nat.lt_irrefl _ hlt
    intro _
    simp only [DAG.modify_self, SUnit.ins_setCurrent, SUnit.ins_setValue, SUnit.value_setCurrent,
      SUnit.value_setValue]
    refine ⟨fun D hD => ?_, ?_⟩
    · rw [hchanged (hne D hD)]
      have hlongest := (h.isGreatest hrank (hbefore D hD)).1
      exact ⟨hbefore D hD, hfits _ (PathTo.cons D hD hlongest)⟩
    · apply foldl_maxOver_congr
      intro D hD
      rw [hchanged (hne D hD)]
      exact ⟨rfl, rfl⟩
  · refine (h x).congr ?_ ?_ ?_ ?_
    · rw [hchanged hx]
    · rw [hchanged hx]
    · rw [hchanged hx]
      exact id
    · rw [hchanged hx]
      intro hcurrent D hD
      have hD' := ((h x hcurrent).1 D hD).1
      have hne : D.SUnit ≠ n := by
        intro heq
        rw [heq, hn] at hD'
        cases hD'
      rw [hchanged hne]
      exact ⟨hD', rfl⟩

theorem currentCount_set [DecidableEq V] [Fintype V] {side : Side} {s : DAG V} {n : V}
    (hn : (s n).current side = false) (k : Nat) :
    currentCount side s < currentCount side
      ((s.modify n (SUnit.setValue side k)).modify n (SUnit.setCurrent side true)) := by
  apply Finset.card_lt_card
  rw [Finset.ssubset_iff_of_subset]
  · refine ⟨n, ?_, ?_⟩
    · rw [Finset.mem_filter, DAG.modify_self, SUnit.current_setCurrent]
      exact ⟨Finset.mem_univ _, rfl⟩
    · rw [Finset.mem_filter, hn]
      exact fun h => Bool.false_ne_true h.2
  · intro x hx
    rw [Finset.mem_filter] at hx ⊢
    refine ⟨hx.1, ?_⟩
    have hne : x ≠ n := by
      rintro rfl
      rw [hn] at hx
      exact Bool.false_ne_true hx.2
    rw [DAG.modify_of_ne _ _ hne, DAG.modify_of_ne _ _ hne]
    exact hx.2

theorem computeTurn_spec [DecidableEq V] [Fintype V] {side : Side} {s₀ : DAG V} {n : V}
    {rank : V → Nat} (hrank₀ : Ranked side s₀ rank) {p : DAG V × List V}
    (h : Computing side s₀ n p) :
    ∃ t, (∀ fuel, computeTurn side fuel p = some t) ∧
      t.Sat (fun p' => Computing side s₀ n p' ∧
          Prod.Lex (· < ·) (Prod.Lex (· < ·) (· < ·)) (computeMeasure side rank p')
            (computeMeasure side rank p))
        (fun s' => Cached side s₀ s' ∧ Coherent side s' ∧ (s' n).current side = true) := by
  obtain ⟨s, WorkList⟩ := p
  have hrank : Ranked side s rank := by
    intro x D hD
    rw [h.frame.ins] at hD
    exact hrank₀ x D hD
  cases WorkList with
  | nil => exact ⟨_, fun _ => rfl, h.frame, h.coherent, h.pending.resolve_left List.not_mem_nil⟩
  | cons Cur WorkList =>
    have hrest : ∀ x ∈ WorkList, PathsFit side s₀ x := fun x hx =>
      h.fits x (List.mem_cons_of_mem _ hx)
    unfold computeTurn
    simp only
    by_cases hdone : (((s Cur).ins side).map SDep.SUnit).filter (fun x => !(s x).current side) = []
    · have hbefore : ∀ D ∈ (s Cur).ins side, (s D.SUnit).current side = true := by
        intro D hD
        have hkept := List.filter_eq_nil_iff.mp hdone D.SUnit (List.mem_map_of_mem hD)
        simpa using hkept
      simp only [hdone, if_true]
      by_cases hcurrent : (s Cur).current side = true
      · -- A repeated entry: nothing changes.
        have hvalue := (h.coherent Cur hcurrent).2
        have hsame : s.modify Cur (SUnit.setCurrent side true) = s :=
          DAG.modify_eq_self (SUnit.setCurrent_of_eq hcurrent)
        refine ⟨.next (s, WorkList), fun fuel => ?_, ⟨h.frame, h.coherent, ?_, hrest⟩, ?_⟩
        · rw [if_neg (fun hne => hne hvalue.symm)]
          simp only [Option.bind_eq_bind, Option.bind_some, hsame]
        · rcases h.pending with hmem | hn
          · rcases List.mem_cons.mp hmem with rfl | hmem
            · exact Or.inr hcurrent
            · exact Or.inl hmem
          · exact Or.inr hn
        · apply Prod.Lex.right
          apply Prod.Lex.left
          simp only
          rw [List.countP_cons_of_pos (by simpa using hcurrent)]
          exact Nat.lt_succ_self _
      · have hfalse := Bool.eq_false_iff.mpr hcurrent
        obtain ⟨Max, hMax⟩ : ∃ Max, Max = maxOver side s ((s Cur).ins side) := ⟨_, rfl⟩
        have hset := h.coherent.set hrank hfalse hbefore fun k hpath =>
          h.fits Cur List.mem_cons_self k (hpath.congr fun x => (h.frame.ins x side).symm)
        refine ⟨.next ((s.modify Cur (SUnit.setValue side Max)).modify Cur
          (SUnit.setCurrent side true), WorkList), fun fuel => ?_,
          ⟨h.frame.set hfalse Max, hMax ▸ hset, ?_, hrest⟩, ?_⟩
        · rw [← hMax]
          by_cases hvalue : Max ≠ (s Cur).value side
          · simp only [if_pos hvalue, setDirty, hfalse, Bool.false_eq_true, if_false,
              Option.bind_eq_bind, Option.bind_some]
          · have hkeep : (s Cur).setValue side Max = s Cur := by
              rw [not_not.mp hvalue]
              cases side <;> rfl
            simp only [if_neg hvalue, Option.bind_eq_bind, Option.bind_some,
              DAG.modify_eq_self hkeep]
        · by_cases hn : n = Cur
          · subst hn
            right
            simp only [DAG.modify_self, SUnit.current_setCurrent]
          · simp only [DAG.modify_of_ne _ _ hn]
            rcases h.pending with hmem | hcur
            · exact Or.inl ((List.mem_cons.mp hmem).resolve_left hn)
            · exact Or.inr hcur
        · apply Prod.Lex.left
          have hlt := currentCount_set hfalse Max
          have hle : currentCount side ((s.modify Cur (SUnit.setValue side Max)).modify Cur
              (SUnit.setCurrent side true)) ≤ Fintype.card V := Finset.card_le_univ _
          simp only
          omega
    · simp only [if_neg hdone]
      obtain ⟨pushed, hpushed⟩ : ∃ pushed, pushed =
        (((s Cur).ins side).map SDep.SUnit).filter (fun x => !(s x).current side) := ⟨_, rfl⟩
      rw [← hpushed] at hdone ⊢
      have hmem (x : V) (hx : x ∈ pushed) :
          (s x).current side = false ∧ rank x < rank Cur ∧ PathsFit side s₀ x := by
        rw [hpushed, List.mem_filter] at hx
        obtain ⟨D, hD, rfl⟩ := List.mem_map.mp hx.1
        refine ⟨by simpa using hx.2, hrank Cur D hD, ?_⟩
        exact (h.fits Cur List.mem_cons_self).before (h.frame.ins Cur side ▸ hD)
      refine ⟨_, fun _ => rfl, ⟨h.frame, h.coherent, ?_, ?_⟩, ?_⟩
      · exact h.pending.imp_left fun hn => List.mem_append_right _ hn
      · intro x hx
        rcases List.mem_append.mp hx with hx | hx
        · exact (hmem x (List.mem_reverse.mp hx)).2.2
        · exact h.fits x hx
      · apply Prod.Lex.right
        have hnone : pushed.reverse.countP (fun x => (s x).current side) = 0 := by
          rw [List.countP_eq_zero]
          intro x hx
          rw [(hmem x (List.mem_reverse.mp hx)).1]
          decide
        rw [List.countP_append, hnone, Nat.zero_add]
        apply Prod.Lex.right
        obtain ⟨x, rest, hcons⟩ := List.exists_cons_of_ne_nil
          (fun hnil => hdone (List.reverse_eq_nil_iff.mp hnil))
        have hx : x ∈ pushed := by
          rw [← List.mem_reverse, hcons]
          exact List.mem_cons_self
        rw [hcons]
        exact (hmem x hx).2.1

theorem getValue_spec [DecidableEq V] [Fintype V] {side : Side} {s : DAG V} {rank : V → Nat}
    (hrank : Ranked side s rank) (h : Coherent side s) {n : V} (hfits : PathsFit side s n) :
    ∃ s' enough, (∀ fuel, enough < fuel →
        getValue side fuel s n = some (s', (s' n).value side)) ∧
      Cached side s s' ∧ Coherent side s' ∧ (s' n).current side = true := by
  unfold getValue
  by_cases hcurrent : (s n).current side = true
  · refine ⟨s, 0, fun _ _ => ?_, Cached.refl side s, h, hcurrent⟩
    rw [if_pos hcurrent]
    rfl
  · have hstart : Computing side s n (s, [n]) :=
      ⟨Cached.refl side s, h, Or.inl (List.mem_singleton_self n), fun x hx =>
        List.mem_singleton.mp hx ▸ hfits⟩
    obtain ⟨s', enough, hrun, hpost⟩ := loop_rule_wf (computeTurn side) 0
      (InvImage.wf (computeMeasure side rank) (WellFounded.prod_lex wellFounded_lt
        (WellFounded.prod_lex wellFounded_lt wellFounded_lt)))
      (fun p hp => by
        obtain ⟨t, ht, hsat⟩ := computeTurn_spec hrank hp
        exact ⟨t, fun fuel _ => ht fuel, hsat⟩) hstart
    refine ⟨s', enough, fun fuel hfuel => ?_, hpost⟩
    rw [if_neg hcurrent, compute, hrun fuel (by omega) fuel hfuel]
    rfl

end SmlnjLlvm.Scheduling
