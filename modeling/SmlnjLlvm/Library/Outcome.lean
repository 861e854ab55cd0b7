import Mathlib.Logic.Basic

/-!
# Computations that may fail or get stuck

A call returns a value, returns an error, or has no outcome: an assertion
fails, an access is out of bounds, or a loop does not end. A stateful
computation keeps its state only with a value, since its callers stop at the
first error.
-/

namespace SmlnjLlvm

inductive Outcome (ε α : Type) where
  | ok (a : α)
  | error (e : ε)
  | stuck
  deriving DecidableEq, Repr

namespace Outcome

variable {ε α β : Type}

def bind (x : Outcome ε α) (f : α → Outcome ε β) : Outcome ε β :=
  match x with
  | .ok a => f a
  | .error e => .error e
  | .stuck => .stuck

instance : Monad (Outcome ε) where
  pure := .ok
  bind := bind

instance : LawfulMonad (Outcome ε) := LawfulMonad.mk' _
  (fun x => by cases x <;> rfl) (fun _ _ => rfl) (fun x _ _ => by cases x <;> rfl)

/-- The call has an outcome, and the value it returns is as wanted. -/
def Sat (P : α → Prop) : Outcome ε α → Prop
  | .ok a => P a
  | .error _ => True
  | .stuck => False

theorem Sat.mono {P Q : α → Prop} {x : Outcome ε α} (h : x.Sat P) (hPQ : ∀ a, P a → Q a) :
    x.Sat Q := by
  cases x with
  | ok a => exact hPQ a h
  | error e => trivial
  | stuck => exact h

theorem Sat.ne_stuck {P : α → Prop} {x : Outcome ε α} (h : x.Sat P) : x ≠ .stuck := by
  intro hx
  rw [hx] at h
  exact h

/-- Two calls end alike, with results and errors related. -/
def Agree {ε' β : Type} (E : ε → ε' → Prop) (V : α → β → Prop) :
    Outcome ε α → Outcome ε' β → Prop
  | .ok a, .ok b => V a b
  | .error e, .error e' => E e e'
  | .stuck, .stuck => True
  | _, _ => False

theorem Agree.bind {ε' α' β' : Type} {E : ε → ε' → Prop} {V : α → α' → Prop} {W : β → β' → Prop}
    {x : Outcome ε α} {y : Outcome ε' α'} {f : α → Outcome ε β} {g : α' → Outcome ε' β'}
    (h : Agree E V x y) (hfg : ∀ a b, V a b → Agree E W (f a) (g b)) :
    Agree E W (x.bind f) (y.bind g) := by
  cases x with
  | ok a =>
    cases y with
    | ok b => exact hfg a b h
    | error e => exact h.elim
    | stuck => exact h.elim
  | error e =>
    cases y with
    | ok b => exact h.elim
    | error e' => exact h
    | stuck => exact h.elim
  | stuck =>
    cases y with
    | ok b => exact h.elim
    | error e' => exact h.elim
    | stuck => trivial

theorem bind_ok (x : Outcome ε α) : x.bind .ok = x := by
  cases x <;> rfl

theorem Agree.map_right {ε' α' β' : Type} {E : ε → ε' → Prop} {V : α → α' → Prop}
    {W : α → β' → Prop} {x : Outcome ε α} {y : Outcome ε' α'} {g : α' → β'}
    (h : Agree E V x y) (hg : ∀ a b, V a b → W a (g b)) :
    Agree E W x (y.bind fun b => .ok (g b)) := by
  rw [← bind_ok x]
  exact h.bind hg

end Outcome

/-- A computation over a state. -/
abbrev Call (σ ε α : Type) := StateT σ (Outcome ε) α

namespace Call

variable {σ ε α β : Type}

/-- The computation ends with an error. -/
def fail (e : ε) : Call σ ε α := fun _ => .error e

/-- The computation has no outcome. -/
def stuck : Call σ ε α := fun _ => .stuck

/-- An assertion of the program. -/
def assert (p : Prop) [Decidable p] : Call σ ε Unit := if p then pure () else stuck

@[simp] theorem pure_run (a : α) (s : σ) : (pure a : Call σ ε α) s = .ok (a, s) := rfl

@[simp] theorem fail_run (e : ε) (s : σ) : (fail e : Call σ ε α) s = .error e := rfl

@[simp] theorem stuck_run (s : σ) : (stuck : Call σ ε α) s = .stuck := rfl

@[simp] theorem get_run (s : σ) : (get : Call σ ε σ) s = .ok (s, s) := rfl

@[simp] theorem set_run (s t : σ) : (set t : Call σ ε PUnit) s = .ok (⟨⟩, t) := rfl

theorem bind_run (m : Call σ ε α) (f : α → Call σ ε β) (s : σ) :
    (m >>= f) s = (m s).bind fun r => f r.1 r.2 := rfl

theorem bind_of_ok {m : Call σ ε α} {f : α → Call σ ε β} {s s' : σ} {a : α}
    (h : m s = .ok (a, s')) : (m >>= f) s = f a s' := by
  rw [bind_run, h, Outcome.bind]

theorem bind_of_error {m : Call σ ε α} {f : α → Call σ ε β} {s : σ} {e : ε}
    (h : m s = .error e) : (m >>= f) s = .error e := by
  rw [bind_run, h, Outcome.bind]

theorem bind_of_stuck {m : Call σ ε α} {f : α → Call σ ε β} {s : σ} (h : m s = .stuck) :
    (m >>= f) s = .stuck := by
  rw [bind_run, h, Outcome.bind]

theorem bind_eq_ok {m : Call σ ε α} {f : α → Call σ ε β} {s : σ} {r : β × σ} :
    (m >>= f) s = .ok r ↔ ∃ a s', m s = .ok (a, s') ∧ f a s' = .ok r := by
  rw [bind_run]
  cases hm : m s with
  | ok p =>
    constructor
    · intro hr
      exact ⟨p.1, p.2, rfl, hr⟩
    · intro hr
      obtain ⟨a, s', hp, hr⟩ := hr
      cases hp
      exact hr
  | error e => simp [Outcome.bind]
  | stuck => simp [Outcome.bind]

theorem assert_of {p : Prop} [Decidable p] (h : p) : (assert p : Call σ ε Unit) = pure () :=
  if_pos h

theorem assert_eq_ok {p : Prop} [Decidable p] {s : σ} {r : Unit × σ} :
    (assert p : Call σ ε Unit) s = .ok r ↔ p ∧ ((), s) = r := by
  unfold assert
  split
  · next h => simp [h]
  · next h => simp [h]

/-- From this state the computation does not get stuck, and the value and the state it ends
with are related to it as wanted. -/
def Wp (m : Call σ ε α) (Q : α → σ → Prop) (s : σ) : Prop := (m s).Sat fun r => Q r.1 r.2

variable {m : Call σ ε α} {Q R : α → σ → Prop} {s : σ}

theorem Wp.mono (h : Wp m Q s) (hQR : ∀ a s', Q a s' → R a s') : Wp m R s :=
  Outcome.Sat.mono h fun r hr => hQR r.1 r.2 hr

theorem Wp.of_ok (h : Wp m Q s) {a : α} {s' : σ} (hm : m s = .ok (a, s')) : Q a s' := by
  unfold Wp at h
  rw [hm] at h
  exact h

theorem Wp.ne_stuck (h : Wp m Q s) : m s ≠ .stuck := Outcome.Sat.ne_stuck h

@[simp] theorem wp_get {Q : σ → σ → Prop} : Wp (get : Call σ ε σ) Q s ↔ Q s s := Iff.rfl

@[simp] theorem wp_set {t : σ} {Q : PUnit → σ → Prop} :
    Wp (set t : Call σ ε PUnit) Q s ↔ Q ⟨⟩ t := Iff.rfl

@[simp] theorem wp_modify {f : σ → σ} {Q : PUnit → σ → Prop} :
    Wp (modify f : Call σ ε PUnit) Q s ↔ Q ⟨⟩ (f s) := Iff.rfl

theorem wp_bind {f : α → Call σ ε β} {Q : β → σ → Prop} :
    Wp (m >>= f) Q s ↔ Wp m (fun a s' => Wp (f a) Q s') s := by
  unfold Wp
  rw [bind_run]
  cases m s with
  | ok p => exact Iff.rfl
  | error e => exact Iff.rfl
  | stuck => exact Iff.rfl

theorem Wp.bind_run {f : α → Call σ ε β} {Q : β → σ → Prop} (hm : Wp m R s)
    (hf : ∀ a s', m s = .ok (a, s') → R a s' → Wp (f a) Q s') : Wp (m >>= f) Q s := by
  rw [wp_bind]
  unfold Wp at hm ⊢
  cases hrun : m s with
  | ok r =>
    rw [hrun] at hm
    exact hf r.1 r.2 hrun hm
  | error e => trivial
  | stuck =>
    rw [hrun] at hm
    exact hm

theorem Wp.bind {f : α → Call σ ε β} {Q : β → σ → Prop} (hm : Wp m R s)
    (hf : ∀ a s', R a s' → Wp (f a) Q s') : Wp (m >>= f) Q s :=
  wp_bind.mpr (hm.mono hf)

end Call

end SmlnjLlvm
