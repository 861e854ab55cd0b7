import Mathlib.Data.Fintype.Card
import Mathlib.Data.List.Count
import Mathlib.Order.WellFounded
import SmlnjLlvm.Scheduling.ScheduleDAG

/-!
# Flags of depths and heights

A unit whose value is current has current values before it, and its value is
the largest sum over its edges. Making a unit dirty restores this when it fails
at that unit alone, and a computation keeps it.
-/

namespace SmlnjLlvm.Scheduling

open Loop

variable {V : Type}

@[simp] theorem DAG.modify_self [DecidableEq V] (s : DAG V) (n : V) (f : SUnit V → SUnit V) :
    s.modify n f n = f (s n) := Function.update_self n _ s

theorem DAG.modify_of_ne [DecidableEq V] (s : DAG V) {n x : V} (f : SUnit V → SUnit V) (h : x ≠ n) :
    s.modify n f x = s x := Function.update_of_ne h _ s

theorem DAG.modify_eq_self [DecidableEq V] {s : DAG V} {n : V} {f : SUnit V → SUnit V} (h : f (s n) = s n) :
    s.modify n f = s := by
  rw [DAG.modify, h]
  exact Function.update_eq_self n s

@[simp] theorem SUnit.ins_setCurrent (u : SUnit V) (side side' : Side) (b : Bool) :
    (u.setCurrent side b).ins side' = u.ins side' := by
  cases side <;> cases side' <;> rfl

@[simp] theorem SUnit.outs_setCurrent (u : SUnit V) (side side' : Side) (b : Bool) :
    (u.setCurrent side b).outs side' = u.outs side' := by
  cases side <;> cases side' <;> rfl

@[simp] theorem SUnit.value_setCurrent (u : SUnit V) (side side' : Side) (b : Bool) :
    (u.setCurrent side b).value side' = u.value side' := by
  cases side <;> cases side' <;> rfl

@[simp] theorem SUnit.current_setCurrent (u : SUnit V) (side : Side) (b : Bool) :
    (u.setCurrent side b).current side = b := by
  cases side <;> rfl

@[simp] theorem SUnit.ins_setValue (u : SUnit V) (side side' : Side) (k : Nat) :
    (u.setValue side k).ins side' = u.ins side' := by
  cases side <;> cases side' <;> rfl

@[simp] theorem SUnit.value_setValue (u : SUnit V) (side : Side) (k : Nat) :
    (u.setValue side k).value side = k := by
  cases side <;> rfl

theorem SUnit.setCurrent_of_eq {u : SUnit V} {side : Side} {b : Bool} (h : u.current side = b) :
    u.setCurrent side b = u := by
  subst h
  cases side <;> rfl

/-- The value of the unit is up to date, if it is marked so, and so are the values before it. -/
def CoherentAt (side : Side) (s : DAG V) (x : V) : Prop :=
  (s x).current side = true →
    (∀ D ∈ (s x).ins side, (s D.SUnit).current side = true ∧
        (s D.SUnit).value side + D.Latency < 2 ^ 32) ∧
      (s x).value side = maxOver side s ((s x).ins side)

def Coherent (side : Side) (s : DAG V) : Prop := ∀ x, CoherentAt side s x

def Linked (side : Side) (s : DAG V) : Prop :=
  ∀ x, ∀ D ∈ (s x).ins side, ∃ D' ∈ (s D.SUnit).outs side, D'.SUnit = x

theorem foldl_maxOver_congr {side : Side} {s s' : DAG V} {edges : List (SDep V)}
    (h : ∀ D ∈ edges, (s D.SUnit).current side = (s' D.SUnit).current side ∧
      (s D.SUnit).value side = (s' D.SUnit).value side) :
    maxOver side s edges = maxOver side s' edges := by
  unfold maxOver
  apply List.foldl_ext
  intro Max D hD
  rw [(h D hD).1, (h D hD).2]

theorem CoherentAt.congr {side : Side} {s s' : DAG V} {x : V} (h : CoherentAt side s x)
    (hins : (s' x).ins side = (s x).ins side) (hvalue : (s' x).value side = (s x).value side)
    (hcurrent : (s' x).current side = true → (s x).current side = true)
    (hbefore : (s' x).current side = true → ∀ D ∈ (s x).ins side,
      (s' D.SUnit).current side = true ∧ (s' D.SUnit).value side = (s D.SUnit).value side) :
    CoherentAt side s' x := by
  intro hx
  obtain ⟨hall, heq⟩ := h (hcurrent hx)
  rw [hins, hvalue]
  refine ⟨fun D hD => ⟨(hbefore hx D hD).1, ?_⟩, ?_⟩
  · rw [(hbefore hx D hD).2]
    exact (hall D hD).2
  · rw [heq]
    apply foldl_maxOver_congr
    intro D hD
    rw [(hall D hD).1, (hbefore hx D hD).1, (hbefore hx D hD).2]
    exact ⟨rfl, rfl⟩

/-! ## Making units dirty -/

def Dirtied (side : Side) (s s' : DAG V) : Prop :=
  ∀ x, s' x = s x ∨ s' x = (s x).setCurrent side false

namespace Dirtied

variable {side : Side} {s s' : DAG V}

theorem refl (side : Side) (s : DAG V) : Dirtied side s s := fun _ => Or.inl rfl

theorem clear [DecidableEq V] (h : Dirtied side s s') (n : V) :
    Dirtied side s (s'.modify n (SUnit.setCurrent side false)) := by
  intro x
  by_cases hx : x = n
  · subst hx
    rw [DAG.modify_self]
    rcases h x with heq | heq
    · rw [heq]
      exact Or.inr rfl
    · rw [heq]
      right
      cases side <;> rfl
  · rw [DAG.modify_of_ne _ _ hx]
    exact h x

theorem ins (h : Dirtied side s s') (x : V) (side' : Side) : (s' x).ins side' = (s x).ins side' := by
  rcases h x with heq | heq
  · rw [heq]
  · rw [heq, SUnit.ins_setCurrent]

theorem outs (h : Dirtied side s s') (x : V) (side' : Side) :
    (s' x).outs side' = (s x).outs side' := by
  rcases h x with heq | heq
  · rw [heq]
  · rw [heq, SUnit.outs_setCurrent]

theorem value (h : Dirtied side s s') (x : V) (side' : Side) :
    (s' x).value side' = (s x).value side' := by
  rcases h x with heq | heq
  · rw [heq]
  · rw [heq, SUnit.value_setCurrent]

end Dirtied

def currentCount (side : Side) [Fintype V] (s : DAG V) : Nat :=
  (Finset.univ.filter fun x => (s x).current side = true).card

/-- Between turns, a unit that is not coherent is still to be visited. -/
structure Clearing (side : Side) (s₀ : DAG V) (n : V) (p : DAG V × List V) : Prop where
  frame : Dirtied side s₀ p.1
  coherent : ∀ x, x ∈ p.2 ∨ CoherentAt side p.1 x

theorem Clearing.linked {side : Side} {s₀ : DAG V} {n : V} {p : DAG V × List V}
    (h : Clearing side s₀ n p) (hlinked : Linked side s₀) : Linked side p.1 := by
  intro x D hD
  rw [h.frame.ins] at hD
  obtain ⟨D', hD', heq⟩ := hlinked x D hD
  exact ⟨D', (h.frame.outs D.SUnit side).symm ▸ hD', heq⟩

def dirtyMeasure (side : Side) [Fintype V] (p : DAG V × List V) : Nat × Nat :=
  (currentCount side p.1, p.2.countP fun x => !(p.1 x).current side)

theorem dirtyTurn_spec [DecidableEq V] [Fintype V] {side : Side} {s₀ : DAG V} {n : V} (hlinked : Linked side s₀)
    {p : DAG V × List V} (h : Clearing side s₀ n p) :
    ∃ t, dirtyTurn side p = some t ∧
      t.Sat (fun p' => Clearing side s₀ n p' ∧
          Prod.Lex (· < ·) (· < ·) (dirtyMeasure side p') (dirtyMeasure side p))
        (fun s' => Dirtied side s₀ s' ∧ Coherent side s') := by
  obtain ⟨s, WorkList⟩ := p
  have hlink := h.linked hlinked
  cases WorkList with
  | nil =>
    refine ⟨_, rfl, h.frame, fun x => ?_⟩
    exact (h.coherent x).resolve_left List.not_mem_nil
  | cons SU WorkList =>
    refine ⟨_, rfl, ⟨h.frame.clear SU, ?_⟩, ?_⟩
    · intro x
      by_cases hx : x = SU
      · subst hx
        right
        intro hcurrent
        simp only [DAG.modify_self, SUnit.current_setCurrent] at hcurrent
        cases hcurrent
      · rcases h.coherent x with hmem | hcoherent
        · left
          exact List.mem_append_right _ ((List.mem_cons.mp hmem).resolve_left hx)
        · by_cases hpushed : ∃ D ∈ (s SU).outs side, D.SUnit = x ∧ (s x).current side = true
          · left
            obtain ⟨D, hD, rfl, hcurrent⟩ := hpushed
            apply List.mem_append_left
            rw [List.mem_reverse, List.mem_filter]
            simp only [DAG.modify_self, SUnit.outs_setCurrent, DAG.modify_of_ne _ _ hx, hcurrent,
              and_true]
            exact List.mem_map_of_mem hD
          · right
            refine hcoherent.congr ?_ ?_ ?_ ?_
            · simp only [DAG.modify_of_ne _ _ hx]
            · simp only [DAG.modify_of_ne _ _ hx]
            · simp only [DAG.modify_of_ne _ _ hx]
              exact id
            · simp only [DAG.modify_of_ne _ _ hx]
              intro hcurrent D hD
              have hne : D.SUnit ≠ SU := by
                intro heq
                obtain ⟨D', hD', hD'x⟩ := hlink x D hD
                rw [heq] at hD'
                exact hpushed ⟨D', hD', hD'x, hcurrent⟩
              rw [DAG.modify_of_ne _ _ hne]
              exact ⟨((hcoherent hcurrent).1 D hD).1, rfl⟩
    · simp only [dirtyMeasure]
      by_cases hcurrent : (s SU).current side = true
      · apply Prod.Lex.left
        apply Finset.card_lt_card
        rw [Finset.ssubset_iff_of_subset]
        · refine ⟨SU, ?_, ?_⟩
          · rw [Finset.mem_filter]
            exact ⟨Finset.mem_univ _, hcurrent⟩
          · rw [Finset.mem_filter, DAG.modify_self, SUnit.current_setCurrent]
            exact fun hfalse => Bool.false_ne_true hfalse.2
        · intro x hx
          rw [Finset.mem_filter] at hx ⊢
          refine ⟨hx.1, ?_⟩
          by_cases heq : x = SU
          · rw [heq, DAG.modify_self, SUnit.current_setCurrent] at hx
            exact absurd hx.2 Bool.false_ne_true
          · rw [DAG.modify_of_ne _ _ heq] at hx
            exact hx.2
      · have hsame : s.modify SU (SUnit.setCurrent side false) = s :=
          DAG.modify_eq_self (SUnit.setCurrent_of_eq (Bool.eq_false_iff.mpr hcurrent))
        rw [hsame]
        apply Prod.Lex.right
        rw [List.countP_append, List.countP_cons_of_pos (by simpa using hcurrent)]
        have hnone : (List.filter (fun x => (s x).current side)
            (((s SU).outs side).map SDep.SUnit)).reverse.countP
              (fun x => !(s x).current side) = 0 := by
          rw [List.countP_eq_zero]
          intro x hx
          rw [List.mem_reverse, List.mem_filter] at hx
          rw [hx.2]
          decide
        rw [hnone]
        omega

theorem setDirty_spec [DecidableEq V] [Fintype V] {side : Side} {s : DAG V} {n : V} (hlinked : Linked side s)
    (h : ∀ x, x ≠ n → CoherentAt side s x) :
    ∃ s' enough, (∀ fuel, enough < fuel → setDirty side fuel s n = some s') ∧
      Dirtied side s s' ∧ Coherent side s' := by
  unfold setDirty
  by_cases hcurrent : (s n).current side = true
  · simp only [if_pos hcurrent]
    have hstart : Clearing side s n (s, [n]) := by
      refine ⟨Dirtied.refl side s, fun x => ?_⟩
      by_cases hx : x = n
      · exact Or.inl (List.mem_singleton.mpr hx)
      · exact Or.inr (h x hx)
    obtain ⟨s', enough, hrun, hpost⟩ := loop_rule_wf (fun _ => dirtyTurn side) 0
      (InvImage.wf (dirtyMeasure side) (WellFounded.prod_lex wellFounded_lt wellFounded_lt))
      (fun p hp => by
        obtain ⟨t, ht, hsat⟩ := dirtyTurn_spec hlinked hp
        exact ⟨t, fun _ _ => ht, hsat⟩) hstart
    exact ⟨s', enough, fun fuel hfuel => hrun 1 Nat.one_pos fuel hfuel, hpost⟩
  · simp only [if_neg hcurrent]
    refine ⟨s, 0, fun _ _ => rfl, Dirtied.refl side s, fun x => ?_⟩
    by_cases hx : x = n
    · subst hx
      exact fun htrue => absurd htrue hcurrent
    · exact h x hx

end SmlnjLlvm.Scheduling
