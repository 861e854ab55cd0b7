import Mathlib.Data.List.Basic

/-!
# First-fit allocation from register pools

Allocating a register takes every register that overlaps it. When the pools
overlap only position by position, each pool is used up from the front, and the
first free register of a pool is the one after those already taken.
-/

namespace SmlnjLlvm.FirstFit

section

variable {ρ : Type} (overlaps : ρ → ρ → Bool)

def isAllocated (used : List ρ) (r : ρ) : Bool := used.any (overlaps r)

/-- The first register of a pool that nothing used overlaps. -/
def firstUnallocated (used pool : List ρ) : Option ρ :=
  pool.find? fun r => !isAllocated overlaps used r

/-- Exactly the first `n` registers of the pool are allocated. -/
def UsedUpTo (used pool : List ρ) (n : Nat) : Prop :=
  ∀ i r, pool[i]? = some r → (isAllocated overlaps used r ↔ i < n)

/-- Two pools overlap position by position. -/
def Aligned (pool pool' : List ρ) : Prop :=
  ∀ (i j : Nat) (r s : ρ), pool[i]? = some r → pool'[j]? = some s → (overlaps r s ↔ i = j)

variable {overlaps}

theorem aligned_of_getElem {pool pool' : List ρ}
    (h : ∀ (i : Fin pool.length) (j : Fin pool'.length), overlaps pool[i] pool'[j] = decide (i.val = j.val)) :
    Aligned overlaps pool pool' := by
  intro i j r s hr hs
  obtain ⟨hi, rfl⟩ := List.getElem?_eq_some_iff.mp hr
  obtain ⟨hj, rfl⟩ := List.getElem?_eq_some_iff.mp hs
  have hij := h ⟨i, hi⟩ ⟨j, hj⟩
  simp only [Fin.getElem_fin] at hij
  rw [hij, decide_eq_true_iff]

theorem aligned_map_range {f g : Nat → ρ} (n m : Nat)
    (h : ∀ i j, overlaps (f i) (g j) = (i == j)) :
    Aligned overlaps ((List.range n).map f) ((List.range m).map g) := by
  intro i j r s hr hs
  obtain ⟨hi, rfl⟩ := List.getElem?_eq_some_iff.mp hr
  obtain ⟨hj, rfl⟩ := List.getElem?_eq_some_iff.mp hs
  rw [List.getElem_map, List.getElem_map, List.getElem_range, List.getElem_range, h, beq_iff_eq]

theorem isAllocated_cons (used : List ρ) (r s : ρ) :
    isAllocated overlaps (s :: used) r ↔ overlaps r s ∨ isAllocated overlaps used r := by
  simp [isAllocated]

theorem usedUpTo_nil (pool : List ρ) : UsedUpTo overlaps [] pool 0 := by
  intro i r _
  simp [isAllocated]

theorem firstUnallocated_eq {used pool : List ρ} {n : Nat} (h : UsedUpTo overlaps used pool n) :
    firstUnallocated overlaps used pool = pool[n]? := by
  induction pool generalizing n with
  | nil => rfl
  | cons r pool ih =>
    have hr := h 0 r rfl
    rw [firstUnallocated, List.find?_cons]
    cases n with
    | zero =>
      have hfree : isAllocated overlaps used r = false := by
        rw [← Bool.not_eq_true]
        exact fun ha => Nat.lt_irrefl 0 (hr.mp ha)
      rw [hfree]
      rfl
    | succ n =>
      have htail : UsedUpTo overlaps used pool n := by
        intro i s hs
        rw [h (i + 1) s hs]
        omega
      rw [hr.mpr (Nat.zero_lt_succ n)]
      exact ih htail

theorem UsedUpTo.alloc {used pool pool' : List ρ} {n : Nat} {r : ρ}
    (h : UsedUpTo overlaps used pool n) (ha : Aligned overlaps pool pool')
    (hr : pool'[n]? = some r) : UsedUpTo overlaps (r :: used) pool (n + 1) := by
  intro i s hs
  rw [isAllocated_cons, ha i n s r hs hr, h i s hs]
  omega

theorem UsedUpTo.other {used pool : List ρ} {n : Nat} {r : ρ}
    (h : UsedUpTo overlaps used pool n) (hr : ∀ s ∈ pool, ¬ overlaps s r) :
    UsedUpTo overlaps (r :: used) pool n := by
  intro i s hs
  have hs' := hr s (List.mem_of_getElem? hs)
  rw [isAllocated_cons, h i s hs]
  simp [hs']

theorem firstUnallocated_free {used pool : List ρ} {r : ρ}
    (h : firstUnallocated overlaps used pool = some r) : ¬ isAllocated overlaps used r := by
  have hfree := List.find?_some h
  simpa using hfree

end

end SmlnjLlvm.FirstFit
