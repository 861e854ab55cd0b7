import SmlnjLlvm.Library.Alignment
import Mathlib.Order.CompletePartialOrder
import Mathlib.Order.Interval.Set.Basic
import Mathlib.Order.Interval.Set.Disjoint

/-!
# Allocation at the end of an arena

An arena is filled from its start; each allocation is placed at the next multiple
of its alignment. The regions that are handed out of several separate arenas, in
any order, have no byte in common, and each stays within its arena.
-/

namespace SmlnjLlvm.BumpAllocation

open Alignment

/-- A start, a capacity, and how much of it is used. -/
structure Arena where
  lo : Nat
  cap : Nat
  used : Nat

/-- What an allocation hands out. -/
structure Region (ι : Type) where
  arena : ι
  ptr : Nat
  size : Nat

def Region.bytes {ι : Type} (x : Region ι) : Set Nat := Set.Ico x.ptr (x.ptr + x.size)

namespace Arena

/-- Where an allocation with alignment `a` starts. -/
def place (A : Arena) (a : Nat) : Nat := A.lo + roundUp A.used a

/-- The arena after an allocation of `n` bytes. -/
def extend (A : Arena) (n a : Nat) : Arena :=
  { A with used := roundUp A.used a + roundUp n a }

end Arena

variable {ι : Type}

/-- No two arenas overlap. -/
def Separate (arenas : ι → Arena) : Prop :=
  ∀ i j, i ≠ j → (arenas i).lo + (arenas i).cap ≤ (arenas j).lo ∨
    (arenas j).lo + (arenas j).cap ≤ (arenas i).lo

/-- The regions lie in the used parts of their arenas, and no two of them overlap. -/
structure Packed (arenas : ι → Arena) (regions : List (Region ι)) : Prop where
  used_le : ∀ i, (arenas i).used ≤ (arenas i).cap
  lo_le : ∀ x ∈ regions, (arenas x.arena).lo ≤ x.ptr
  end_le : ∀ x ∈ regions, x.ptr + x.size ≤ (arenas x.arena).lo + (arenas x.arena).used
  disjoint : regions.Pairwise fun x y => Disjoint x.bytes y.bytes

namespace Packed

variable {arenas : ι → Arena} {regions : List (Region ι)}

theorem empty (h : ∀ i, (arenas i).used ≤ (arenas i).cap) : Packed arenas [] where
  used_le := h
  lo_le := fun _ hx => absurd hx List.not_mem_nil
  end_le := fun _ hx => absurd hx List.not_mem_nil
  disjoint := List.Pairwise.nil

variable [DecidableEq ι]

theorem alloc (h : Packed arenas regions) (hsep : Separate arenas) (i : ι) (n : Nat) {a : Nat}
    (ha : 0 < a) (hroom : roundUp (arenas i).used a + roundUp n a ≤ (arenas i).cap) :
    Packed (Function.update arenas i ((arenas i).extend n a))
      (⟨i, (arenas i).place a, n⟩ :: regions) := by
  have hused := le_roundUp (arenas i).used ha
  have hn := le_roundUp n ha
  have hlo : ∀ j, (Function.update arenas i ((arenas i).extend n a) j).lo = (arenas j).lo := by
    intro j
    by_cases hj : j = i
    · rw [hj, Function.update_self]
      rfl
    · rw [Function.update_of_ne hj]
  have hmono : ∀ j, (arenas j).used ≤
      (Function.update arenas i ((arenas i).extend n a) j).used := by
    intro j
    by_cases hj : j = i
    · rw [hj, Function.update_self]
      exact hused.trans (Nat.le_add_right _ _)
    · rw [Function.update_of_ne hj]
  constructor
  · intro j
    by_cases hj : j = i
    · rw [hj, Function.update_self]
      exact hroom
    · rw [Function.update_of_ne hj]
      exact h.used_le j
  · intro x hx
    rw [hlo]
    rcases List.mem_cons.mp hx with rfl | hx
    · exact Nat.le_add_right _ _
    · exact h.lo_le x hx
  · intro x hx
    rw [hlo]
    rcases List.mem_cons.mp hx with rfl | hx
    · rw [Function.update_self]
      change (arenas i).lo + roundUp (arenas i).used a + n ≤
        (arenas i).lo + (roundUp (arenas i).used a + roundUp n a)
      omega
    · have hend := h.end_le x hx
      have hle := hmono x.arena
      omega
  · refine List.pairwise_cons.mpr ⟨?_, h.disjoint⟩
    intro x hx
    have hxlo := h.lo_le x hx
    have hxend := h.end_le x hx
    have hxused := h.used_le x.arena
    apply Set.Ico_disjoint_Ico.mpr
    change min ((arenas i).lo + roundUp (arenas i).used a + n) (x.ptr + x.size) ≤
      max ((arenas i).lo + roundUp (arenas i).used a) x.ptr
    by_cases hi : x.arena = i
    · -- In the same arena the older region ends before the new one starts.
      rw [hi] at hxend
      omega
    · rcases hsep x.arena i hi with hbefore | hafter
      · omega
      · omega

end Packed

end SmlnjLlvm.BumpAllocation
