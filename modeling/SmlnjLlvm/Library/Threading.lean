import Mathlib.Logic.Function.Basic
import Mathlib.Data.List.Basic

/-!
# Values threaded through a flow graph

Each block of a flow graph transforms a value that enters it. Some blocks start
from a value of their own, whichever edge enters them; every other block starts
from the value at the end of the block before it. A labelling of the blocks
with start values determines the value at the end of every path.
-/

namespace SmlnjLlvm.Threading

/-- Edges, blocks with a start value of their own, and what each block does. -/
structure Flow (β σ : Type) where
  succs : β → List β
  start : β → Option σ
  effect : β → σ → σ

variable {β σ : Type} {F F' : Flow β σ} {G G' : β → σ}

namespace Flow

/-- A path from a starting block ends in `b` with this value. -/
inductive AtEnd (F : Flow β σ) : β → σ → Prop where
  | start {b : β} {x : σ} (h : F.start b = some x) : AtEnd F b (F.effect b x)
  | step {a b : β} {x : σ} (ha : AtEnd F a x) (hb : b ∈ F.succs a) (hs : F.start b = none) :
      AtEnd F b (F.effect b x)

/-- Some path from a starting block ends in the block. -/
inductive Reached (F : Flow β σ) : β → Prop where
  | start {b : β} (h : F.start b ≠ none) : Reached F b
  | step {a b : β} (ha : Reached F a) (hb : b ∈ F.succs a) : Reached F b

theorem Reached.exists_atEnd {b : β} (h : F.Reached b) : ∃ x, F.AtEnd b x := by
  induction h with
  | @start b h =>
    obtain ⟨x, hx⟩ := Option.ne_none_iff_exists'.mp h
    exact ⟨_, .start hx⟩
  | @step a b ha hb ih =>
    obtain ⟨x, hx⟩ := ih
    cases hs : F.start b with
    | none => exact ⟨_, .step hx hb hs⟩
    | some y => exact ⟨_, .start hs⟩

theorem Reached.mono (hsuccs : ∀ a b, b ∈ F.succs a → b ∈ F'.succs a)
    (hstart : ∀ b, F.start b ≠ none → F'.start b ≠ none) {b : β} (h : F.Reached b) :
    F'.Reached b := by
  induction h with
  | start h => exact .start (hstart _ h)
  | step _ hb ih => exact .step ih (hsuccs _ _ hb)

/-- The labelling gives every block the value it starts from. -/
structure Consistent (F : Flow β σ) (G : β → σ) : Prop where
  start : ∀ b x, F.start b = some x → G b = x
  edge : ∀ a b, b ∈ F.succs a → F.start b = none → G b = F.effect a (G a)

theorem Consistent.atEnd_eq (hG : F.Consistent G) {b : β} {x : σ} (h : F.AtEnd b x) :
    x = F.effect b (G b) := by
  induction h with
  | start h => rw [hG.start _ _ h]
  | step _ hb hs ih => rw [hG.edge _ _ hb hs, ih]

theorem Consistent.congr (hG : F.Consistent G) (hsuccs : F'.succs = F.succs)
    (hstart : F'.start = F.start)
    (heffect : ∀ a, F.succs a ≠ [] → F'.effect a (G a) = F.effect a (G a)) :
    F'.Consistent G where
  start b x h := hG.start b x (hstart ▸ h)
  edge a b hb hs := by
    rw [hsuccs] at hb
    rw [hstart] at hs
    rw [hG.edge a b hb hs, heffect a (List.ne_nil_of_mem hb)]

variable [DecidableEq β]

theorem Consistent.addStart (hG : F.Consistent G) {o : β} {x : σ} (hout : F.succs o = [])
    (hin : ∀ a, o ∉ F.succs a) (hsuccs : F'.succs = F.succs)
    (heffect : ∀ a, a ≠ o → F'.effect a = F.effect a)
    (hstart : ∀ b, b ≠ o → F'.start b = F.start b) (hnew : ∀ y, F'.start o = some y → y = x) :
    F'.Consistent (Function.update G o x) where
  start b y h := by
    by_cases hb : b = o
    · subst hb
      rw [Function.update_self, hnew y h]
    · rw [Function.update_of_ne hb]
      exact hG.start b y (hstart b hb ▸ h)
  edge a b hb hs := by
    rw [hsuccs] at hb
    have hao : a ≠ o := by
      intro h
      rw [h, hout] at hb
      exact absurd hb List.not_mem_nil
    have hbo : b ≠ o := by
      intro h
      exact hin a (h ▸ hb)
    rw [hstart b hbo] at hs
    rw [Function.update_of_ne hbo, Function.update_of_ne hao, heffect a hao]
    exact hG.edge a b hb hs

/-- The labelling after the blocks `ts` have been entered with the value `x`. -/
def enter (G : β → σ) (ts : List β) (x : σ) : β → σ := fun b => if b ∈ ts then x else G b

@[simp] theorem enter_of_mem {ts : List β} {b : β} (x : σ) (h : b ∈ ts) : enter G ts x b = x :=
  if_pos h

theorem enter_of_not_mem {ts : List β} {b : β} (x : σ) (h : b ∉ ts) : enter G ts x b = G b :=
  if_neg h

/--
A block that had no successors receives some. Those that were never entered
before start from its final value.
-/
theorem Consistent.close (hG : F.Consistent G) {a : β} {ts : List β} (hout : F.succs a = [])
    (ha : a ∉ ts) (hts : ∀ b ∈ ts, F.succs b = [] ∧ F.start b = none ∧ ∀ c, b ∉ F.succs c)
    (hsuccs : ∀ c, c ≠ a → F'.succs c = F.succs c) (hstart : F'.start = F.start)
    (heffect : F'.effect = F.effect)
    (htarget : ∀ b ∈ F'.succs a, b ∈ ts ∨ F.start b ≠ none ∨ G b = F.effect a (G a)) :
    F'.Consistent (enter G ts (F.effect a (G a))) where
  start b x h := by
    rw [hstart] at h
    have hb : b ∉ ts := by
      intro hb
      rw [(hts b hb).2.1] at h
      cases h
    rw [enter_of_not_mem _ hb]
    exact hG.start b x h
  edge c b hb hs := by
    rw [hstart] at hs
    rw [heffect]
    by_cases hc : c = a
    · subst hc
      rw [enter_of_not_mem _ ha]
      by_cases hbt : b ∈ ts
      · exact enter_of_mem _ hbt
      · rw [enter_of_not_mem _ hbt]
        rcases htarget b hb with h | h | h
        · exact absurd h hbt
        · exact absurd hs h
        · exact h
    · rw [hsuccs c hc] at hb
      have hct : c ∉ ts := by
        intro h
        rw [(hts c h).1] at hb
        exact absurd hb List.not_mem_nil
      have hbt : b ∉ ts := fun h => (hts b h).2.2 c hb
      rw [enter_of_not_mem _ hct, enter_of_not_mem _ hbt]
      exact hG.edge c b hb hs

end Flow

end SmlnjLlvm.Threading
