import Mathlib.Data.List.Range

/-!
# Loops with a bound on their turns

## Loops left from inside a turn

A turn either goes on with a new state or leaves the loop with a result, and
may fail. The turn itself may be bounded by fuel, as one with an inner loop is.
-/

namespace SmlnjLlvm.Loop

/-- How a turn ends. -/
inductive Turn (σ ρ : Type) where
  | next (s : σ)
  | exit (r : ρ)

variable {σ ρ : Type}

/-- What holds of the next state, or of the result. -/
def Turn.Sat (P : σ → Prop) (Q : ρ → Prop) : Turn σ ρ → Prop
  | .next s => P s
  | .exit r => Q r

/-- At most `turns` turns; there is no result when the loop would go on after them. -/
def loop (turn : σ → Option (Turn σ ρ)) : Nat → σ → Option ρ
  | 0, _ => none
  | turns + 1, s =>
    match turn s with
    | none => none
    | some (.next s) => loop turn turns s
    | some (.exit r) => some r

theorem some_bind {α β : Type} (a : α) (f : α → Option β) : (some a >>= f) = f a := rfl

theorem loop_next {turn : σ → Option (Turn σ ρ)} {s s' : σ} (h : turn s = some (.next s'))
    (turns : Nat) : loop turn (turns + 1) s = loop turn turns s' := by
  rw [loop, h]

theorem loop_exit {turn : σ → Option (Turn σ ρ)} {s : σ} {r : ρ} (h : turn s = some (.exit r))
    (turns : Nat) : loop turn (turns + 1) s = some r := by
  rw [loop, h]

theorem loop_add {turn : σ → Option (Turn σ ρ)} {turns : Nat} {s : σ} {r : ρ}
    (h : loop turn turns s = some r) (more : Nat) : loop turn (turns + more) s = some r := by
  induction turns generalizing s with
  | zero => cases h
  | succ turns ih =>
    rw [Nat.succ_add]
    cases hturn : turn s with
    | none =>
      rw [loop, hturn] at h
      cases h
    | some t =>
      cases t with
      | next s' =>
        rw [loop_next hturn] at h ⊢
        exact ih h
      | exit r' =>
        rw [loop_exit hturn] at h ⊢
        exact h

/-- What is left of the loop after a turn. -/
def resume (turn : σ → Option (Turn σ ρ)) (turns : Nat) : Turn σ ρ → Option ρ
  | .next s => loop turn turns s
  | .exit r => some r

theorem loop_resume {turn : σ → Option (Turn σ ρ)} {s : σ} {t : Turn σ ρ} (h : turn s = some t)
    (turns : Nat) : loop turn (turns + 1) s = resume turn turns t := by
  cases t with
  | next s' => exact loop_next h turns
  | exit r => exact loop_exit h turns

/-- A number of turns, at most `n`, that lead from one state to another. -/
def Leads (turn : σ → Option (Turn σ ρ)) (n : Nat) (s s' : σ) : Prop :=
  ∃ m ≤ n, ∀ turns, loop turn (m + turns) s = loop turn turns s'

theorem Leads.refl (turn : σ → Option (Turn σ ρ)) (n : Nat) (s : σ) : Leads turn n s s :=
  ⟨0, Nat.zero_le n, fun turns => by rw [Nat.zero_add]⟩

theorem Leads.turn {turn : σ → Option (Turn σ ρ)} {n : Nat} {s s' : σ}
    (h : turn s = some (.next s')) (hn : 1 ≤ n) : Leads turn n s s' :=
  ⟨1, hn, fun turns => by rw [Nat.add_comm, loop_next h]⟩

theorem Leads.mono {turn : σ → Option (Turn σ ρ)} {n n' : Nat} {s s' : σ} (h : Leads turn n s s')
    (hn : n ≤ n') : Leads turn n' s s' := by
  obtain ⟨m, hm, hloop⟩ := h
  exact ⟨m, hm.trans hn, hloop⟩

theorem Leads.trans {turn : σ → Option (Turn σ ρ)} {n n' : Nat} {s s' s'' : σ}
    (h : Leads turn n s s') (h' : Leads turn n' s' s'') : Leads turn (n + n') s s'' := by
  obtain ⟨m, hm, hloop⟩ := h
  obtain ⟨m', hm', hloop'⟩ := h'
  refine ⟨m + m', Nat.add_le_add hm hm', ?_⟩
  intro turns
  rw [Nat.add_assoc, hloop, hloop']

/--
The rule for the loop: from the invariant a turn succeeds with any fuel above
the bound; going on keeps the invariant and makes the measure smaller.
-/
theorem loop_rule (turn : Nat → σ → Option (Turn σ ρ)) (bound : Nat) (measure : σ → Nat)
    {Inv : σ → Prop} {Post : ρ → Prop}
    (hturn : ∀ s, Inv s → ∃ t, (∀ fuel, bound < fuel → turn fuel s = some t) ∧
      t.Sat (fun s' => Inv s' ∧ measure s' < measure s) Post)
    {s : σ} (hs : Inv s) :
    ∃ r, (∀ fuel, bound < fuel → ∀ turns, measure s < turns →
      loop (turn fuel) turns s = some r) ∧ Post r := by
  induction hm : measure s using Nat.strongRecOn generalizing s with
  | ind n ih =>
    obtain ⟨t, hrun, hsat⟩ := hturn s hs
    cases t with
    | exit r =>
      refine ⟨r, ?_, hsat⟩
      intro fuel hfuel turns hturns
      cases turns with
      | zero => exact absurd hturns (Nat.not_lt_zero _)
      | succ turns => exact loop_exit (hrun fuel hfuel) turns
    | next s' =>
      obtain ⟨r, hrest, hpost⟩ := ih _ (hm ▸ hsat.2) hsat.1 rfl
      refine ⟨r, ?_, hpost⟩
      intro fuel hfuel turns hturns
      cases turns with
      | zero => exact absurd hturns (Nat.not_lt_zero _)
      | succ turns =>
        have hlt := hsat.2
        rw [loop_next (hrun fuel hfuel)]
        apply hrest fuel hfuel
        omega

theorem loop_total (turn : σ → Option (Turn σ ρ)) (measure : σ → Nat) {Inv : σ → Prop}
    {Post : ρ → Prop}
    (hturn : ∀ s, Inv s → ∃ t, turn s = some t ∧
      t.Sat (fun s' => Inv s' ∧ measure s' < measure s) Post)
    {s : σ} (hs : Inv s) :
    ∃ r, (∀ turns, measure s < turns → loop turn turns s = some r) ∧ Post r := by
  have hturn' : ∀ s, Inv s → ∃ t, (∀ fuel, 0 < fuel → turn s = some t) ∧
      t.Sat (fun s' => Inv s' ∧ measure s' < measure s) Post := by
    intro s hs
    obtain ⟨t, ht, hsat⟩ := hturn s hs
    exact ⟨t, fun _ _ => ht, hsat⟩
  obtain ⟨r, hrun, hpost⟩ := loop_rule (fun _ => turn) 0 measure hturn' hs
  exact ⟨r, hrun 1 Nat.one_pos, hpost⟩

theorem loop_diverges (turn : σ → Option (Turn σ ρ)) {Inv : σ → Prop}
    (hturn : ∀ s, Inv s → ∃ s', turn s = some (.next s') ∧ Inv s')
    {s : σ} (hs : Inv s) (turns : Nat) : loop turn turns s = none := by
  induction turns generalizing s with
  | zero => rfl
  | succ turns ih =>
    obtain ⟨s', hrun, hs'⟩ := hturn s hs
    rw [loop_next hrun]
    exact ih hs'

/--
The rule for a loop whose turns go down in a well-founded order: with enough
turns there is a result.
-/
theorem loop_rule_wf (turn : Nat → σ → Option (Turn σ ρ)) (bound : Nat) {r : σ → σ → Prop}
    (hwf : WellFounded r) {Inv : σ → Prop} {Post : ρ → Prop}
    (hturn : ∀ s, Inv s → ∃ t, (∀ fuel, bound < fuel → turn fuel s = some t) ∧
      t.Sat (fun s' => Inv s' ∧ r s' s) Post)
    {s : σ} (hs : Inv s) :
    ∃ out enough, (∀ fuel, bound < fuel → ∀ turns, enough < turns →
      loop (turn fuel) turns s = some out) ∧ Post out := by
  induction s using hwf.induction with
  | _ s ih =>
    obtain ⟨t, hrun, hsat⟩ := hturn s hs
    cases t with
    | exit out =>
      refine ⟨out, 0, ?_, hsat⟩
      intro fuel hfuel turns hturns
      cases turns with
      | zero => exact absurd hturns (Nat.not_lt_zero _)
      | succ turns => exact loop_exit (hrun fuel hfuel) turns
    | next s' =>
      obtain ⟨out, enough, hrest, hpost⟩ := ih s' hsat.2 hsat.1
      refine ⟨out, enough + 1, ?_, hpost⟩
      intro fuel hfuel turns hturns
      cases turns with
      | zero => exact absurd hturns (Nat.not_lt_zero _)
      | succ turns =>
        rw [loop_next (hrun fuel hfuel)]
        exact hrest fuel hfuel turns (Nat.lt_of_succ_lt_succ hturns)

theorem foldlM_range_rule {turn : σ → Nat → Option σ} (Inv : Nat → σ → Prop) {n : Nat} {s : σ}
    (hs : Inv 0 s) (hturn : ∀ i < n, ∀ s, Inv i s → ∃ s', turn s i = some s' ∧ Inv (i + 1) s') :
    ∃ s', (List.range n).foldlM turn s = some s' ∧ Inv n s' := by
  induction n with
  | zero => exact ⟨s, rfl, hs⟩
  | succ n ih =>
    obtain ⟨t, hrun, ht⟩ := ih fun i hi => hturn i (Nat.lt_succ_of_lt hi)
    obtain ⟨s', hlast, hs'⟩ := hturn n (Nat.lt_succ_self n) t ht
    refine ⟨s', ?_, hs'⟩
    rw [List.range_succ, List.foldlM_append, hrun]
    change (turn t n).bind (fun s => some s) = _
    rw [hlast, Option.bind_some]

end SmlnjLlvm.Loop

/-!
## Loops that test after each turn

A `do … while` loop with a bound on its turns. With an invariant for the start
of a turn, one for its end and a measure that decreases, every bound above the
measure gives the same result.
-/

namespace SmlnjLlvm.DoWhile

variable {σ : Type} {step : σ → σ} {cond : σ → Bool}

/-- At most `fuel` turns; there is no result when the loop would go on after them. -/
def doWhile (step : σ → σ) (cond : σ → Bool) : Nat → σ → Option σ
  | 0, _ => none
  | fuel + 1, s => if cond (step s) then doWhile step cond fuel (step s) else some (step s)

theorem doWhile_succ (fuel : Nat) (s : σ) :
    doWhile step cond (fuel + 1) s =
      if cond (step s) then doWhile step cond fuel (step s) else some (step s) := rfl

/--
The rule for the loop: a turn leads from `Pre` to `Post`, and the test leads
back to `Pre` with a smaller measure.
-/
theorem doWhile_rule {Pre Post : σ → Prop} (measure : σ → Nat)
    (hstep : ∀ s, Pre s → Post (step s))
    (hcont : ∀ s, Pre s → cond (step s) = true → Pre (step s) ∧ measure (step s) < measure s)
    {s : σ} (hs : Pre s) :
    ∃ s', (∀ fuel, measure s < fuel → doWhile step cond fuel s = some s') ∧ Post s' ∧
      cond s' = false := by
  induction hm : measure s using Nat.strongRecOn generalizing s with
  | ind n ih =>
    by_cases hcond : cond (step s)
    · obtain ⟨hpre, hlt⟩ := hcont s hs hcond
      obtain ⟨s', hrun, hpost, hexit⟩ := ih _ (hm ▸ hlt) hpre rfl
      refine ⟨s', ?_, hpost, hexit⟩
      intro fuel hfuel
      cases fuel with
      | zero => exact absurd hfuel (Nat.not_lt_zero _)
      | succ fuel =>
        rw [doWhile_succ, if_pos hcond]
        apply hrun
        omega
    · refine ⟨step s, ?_, hstep s hs, Bool.eq_false_iff.mpr hcond⟩
      intro fuel hfuel
      cases fuel with
      | zero => exact absurd hfuel (Nat.not_lt_zero _)
      | succ fuel => rw [doWhile_succ, if_neg hcond]

end SmlnjLlvm.DoWhile
