import Mathlib.Logic.Basic

/-!
# Partial stateful computations

A computation in `StateT σ Option` moves along a relation when each of its
completed runs relates the state it starts in to the state it ends in. Along a
reflexive and transitive relation straight-line code is composed step by step.
-/

namespace SmlnjLlvm.PartialState

universe u

variable {σ α β : Type u}

theorem bind_eq_some {m : StateT σ Option α} {f : α → StateT σ Option β} {s : σ} {r : β × σ} :
    (m >>= f) s = some r ↔ ∃ a s', m s = some (a, s') ∧ f a s' = some r := by
  change (m s >>= fun p => f p.1 p.2) = some r ↔ _
  cases h : m s with
  | none => simp
  | some p =>
    constructor
    · intro hr
      exact ⟨p.1, p.2, rfl, hr⟩
    · intro hr
      obtain ⟨a, s', hp, hr⟩ := hr
      cases hp
      exact hr

@[simp] theorem pure_eq_some {a : α} {s : σ} {r : α × σ} :
    (pure a : StateT σ Option α) s = some r ↔ (a, s) = r := by
  change some (a, s) = some r ↔ _
  simp

@[simp] theorem failure_ne_some {s : σ} {r : α × σ} :
    (failure : StateT σ Option α) s = some r ↔ False := by
  change none = some r ↔ False
  simp

@[simp] theorem get_eq_some {s : σ} {r : σ × σ} :
    (get : StateT σ Option σ) s = some r ↔ (s, s) = r := by
  change some (s, s) = some r ↔ _
  simp

/-- Every completed run relates its first state to its last one. -/
def Moves (R : σ → σ → Prop) (m : StateT σ Option α) : Prop :=
  ∀ s a s', m s = some (a, s') → R s s'

variable {R : σ → σ → Prop}

namespace Moves

theorem pure (hrefl : ∀ s, R s s) (a : α) : Moves R (Pure.pure a) := by
  intro s a' s' h
  cases pure_eq_some.mp h
  exact hrefl s

theorem failure : Moves R (failure : StateT σ Option α) := by
  intro s a s' h
  exact (failure_ne_some.mp h).elim

theorem get (hrefl : ∀ s, R s s) : Moves R (MonadState.get : StateT σ Option σ) := by
  intro s a s' h
  cases get_eq_some.mp h
  exact hrefl s

theorem bind (htrans : ∀ s₁ s₂ s₃, R s₁ s₂ → R s₂ s₃ → R s₁ s₃) {m : StateT σ Option α}
    {f : α → StateT σ Option β} (hm : Moves R m) (hf : ∀ a, Moves R (f a)) :
    Moves R (m >>= f) := by
  intro s b s' h
  obtain ⟨a, s₁, h₁, h₂⟩ := bind_eq_some.mp h
  exact htrans s s₁ s' (hm s a s₁ h₁) (hf a s₁ b s' h₂)

end Moves

end SmlnjLlvm.PartialState
