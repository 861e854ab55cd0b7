import Mathlib.Logic.Relation
import Mathlib.Data.List.Nodup
import Mathlib.Data.List.Perm.Subperm

/-!
# Strongly connected components

An enumeration lists components of a relation so that no edge leads from a
component to a later one. It grows by a set of nodes that all reach one of them
and are reached from it, and whose other edges lead to earlier components.
-/

namespace SmlnjLlvm.Components

open Relation

variable {α : Type} {E : α → α → Prop}

theorem closed_reach {P : α → Prop} (hclosed : ∀ a, P a → ∀ b, E a b → P b) {a b : α} (ha : P a)
    (h : ReflTransGen E a b) : P b := by
  induction h with
  | refl => exact ha
  | tail _ hbc ih => exact hclosed _ ih _ hbc

/-- Every node is in the component of the nodes it shares cycles with. -/
def Strong (E : α → α → Prop) (a b : α) : Prop := ReflTransGen E a b ∧ ReflTransGen E b a

/-- Whole components without repetition, each after those that its edges lead to. -/
structure Enumeration (E : α → α → Prop) (cs : List (List α)) : Prop where
  nodup : cs.flatten.Nodup
  ne_nil : ∀ c ∈ cs, c ≠ []
  component : ∀ c ∈ cs, ∀ a ∈ c, ∀ b, b ∈ c ↔ Strong E a b
  order : cs.Pairwise fun c d => ∀ a ∈ c, ∀ b ∈ d, ¬ E a b
  closed : ∀ a ∈ cs.flatten, ∀ b, E a b → b ∈ cs.flatten

theorem Enumeration.nil : Enumeration E [] where
  nodup := List.nodup_nil
  ne_nil _ hc := absurd hc List.not_mem_nil
  component _ hc := absurd hc List.not_mem_nil
  order := List.Pairwise.nil
  closed _ ha := absurd ha List.not_mem_nil

theorem Enumeration.snoc {cs : List (List α)} (h : Enumeration E cs) {c : List α} {r : α}
    (hr : r ∈ c) (hnodup : c.Nodup) (hnew : ∀ a ∈ c, a ∉ cs.flatten)
    (hto : ∀ a ∈ c, ReflTransGen E r a) (hfrom : ∀ a ∈ c, ReflTransGen E a r)
    (hedges : ∀ a ∈ c, ∀ b, E a b → b ∈ c ∨ b ∈ cs.flatten) : Enumeration E (cs ++ [c]) := by
  have hflat : (cs ++ [c]).flatten = cs.flatten ++ c := by
    rw [List.flatten_append, List.flatten_singleton]
  have hclosed : ∀ a, a ∈ c ∨ a ∈ cs.flatten → ∀ b, E a b → b ∈ c ∨ b ∈ cs.flatten := by
    intro a ha b hab
    rcases ha with ha | ha
    · exact hedges a ha b hab
    · exact Or.inr (h.closed a ha b hab)
  refine ⟨?_, ?_, ?_, ?_, ?_⟩
  · rw [hflat]
    refine List.Nodup.append h.nodup hnodup ?_
    intro a hcs hc
    exact hnew a hc hcs
  · intro d hd
    rcases List.mem_append.mp hd with hd | hd
    · exact h.ne_nil d hd
    · rw [List.mem_singleton.mp hd]
      exact List.ne_nil_of_mem hr
  · intro d hd a ha b
    rcases List.mem_append.mp hd with hd | hd
    · exact h.component d hd a ha b
    · rw [List.mem_singleton.mp hd] at ha ⊢
      constructor
      · intro hb
        exact ⟨(hfrom a ha).trans (hto b hb), (hfrom b hb).trans (hto a ha)⟩
      · intro hab
        rcases closed_reach hclosed (Or.inl ha) hab.1 with hb | hb
        · exact hb
        · exact absurd (closed_reach h.closed hb hab.2) (hnew a ha)
  · rw [List.pairwise_append]
    refine ⟨h.order, List.pairwise_singleton _ _, ?_⟩
    intro d hd e he a ha b hb hab
    rw [List.mem_singleton.mp he] at hb
    exact hnew b hb (h.closed a (List.mem_flatten_of_mem hd ha) b hab)
  · rw [hflat]
    intro a ha b hab
    rw [List.mem_append] at ha ⊢
    exact (hclosed a ha.symm b hab).symm

theorem cycle_iff {c : List α} (hnodup : c.Nodup) (hc : ∀ a ∈ c, ∀ b, b ∈ c ↔ Strong E a b)
    {a : α} (ha : a ∈ c) : TransGen E a a ↔ 1 < c.length ∨ E a a := by
  constructor
  · intro h
    obtain ⟨b, hab, hba⟩ := TransGen.head'_iff.mp h
    by_cases hb : b = a
    · exact Or.inr (hb ▸ hab)
    · left
      have hmem : b ∈ c := (hc a ha b).mpr ⟨ReflTransGen.single hab, hba⟩
      have hsub : [a, b].Subperm c := by
        refine List.subperm_of_subset ?_ ?_
        · exact List.nodup_cons.mpr ⟨by simpa using fun h => hb h.symm, List.nodup_singleton b⟩
        · intro x hx
          rcases List.mem_cons.mp hx with hx | hx
          · rwa [hx]
          · rwa [List.mem_singleton.mp hx]
      exact hsub.length_le
  · intro h
    rcases h with hlen | hself
    · obtain ⟨b, hb, hne⟩ : ∃ b ∈ c, b ≠ a := by
        by_contra hall
        push Not at hall
        have hle : c ⊆ [a] := fun b hb => List.mem_singleton.mpr (hall b hb)
        have hlen' := (List.subperm_of_subset hnodup hle).length_le
        rw [List.length_singleton] at hlen'
        omega
      have hab := (hc a ha b).mp hb
      have hstep : TransGen E a b := by
        rcases reflTransGen_iff_eq_or_transGen.mp hab.1 with h | h
        · exact absurd h hne
        · exact h
      exact hstep.trans_left hab.2
    · exact TransGen.single hself

end SmlnjLlvm.Components
