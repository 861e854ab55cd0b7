import Mathlib.Algebra.BigOperators.Group.List.Basic
import Mathlib.Data.List.Perm.Subperm
import Mathlib.Tactic.Linarith

/-!
# Sums by key

The items of a list have a key and a size. The sizes at all the keys add up to
the sizes of the items.
-/

namespace SmlnjLlvm.KeySums

variable {α κ : Type} [DecidableEq κ] {key : α → κ} {size : α → Nat}

/-- The size of all items. -/
def total (size : α → Nat) (xs : List α) : Nat := (xs.map size).sum

/-- The size of the items with the key `k`. -/
def sumAt (key : α → κ) (size : α → Nat) (xs : List α) (k : κ) : Nat :=
  (xs.map fun x => if key x = k then size x else 0).sum

@[simp] theorem total_nil : total size [] = 0 := rfl

@[simp] theorem total_cons (x : α) (xs : List α) : total size (x :: xs) = size x + total size xs := by
  simp [total]

@[simp] theorem sumAt_nil (k : κ) : sumAt key size [] k = 0 := rfl

@[simp] theorem sumAt_cons (x : α) (xs : List α) (k : κ) :
    sumAt key size (x :: xs) k = (if key x = k then size x else 0) + sumAt key size xs k := by
  simp [sumAt]

@[simp] theorem sumAt_append (xs ys : List α) (k : κ) :
    sumAt key size (xs ++ ys) k = sumAt key size xs k + sumAt key size ys k := by
  simp [sumAt]

theorem sumAt_perm {xs ys : List α} (h : xs.Perm ys) (k : κ) :
    sumAt key size xs k = sumAt key size ys k :=
  (h.map _).sum_eq

theorem sumAt_eq_zero {xs : List α} {k : κ} (h : k ∉ xs.map key) : sumAt key size xs k = 0 := by
  induction xs with
  | nil => rfl
  | cons x xs ih =>
    rw [List.map_cons, List.mem_cons, not_or] at h
    rw [sumAt_cons, if_neg (Ne.symm h.1), ih h.2]

theorem sumAt_of_nodup {xs : List α} (hnodup : (xs.map key).Nodup) {x : α} (hx : x ∈ xs) :
    sumAt key size xs (key x) = size x := by
  induction xs with
  | nil => cases hx
  | cons y xs ih =>
    rw [List.map_cons, List.nodup_cons] at hnodup
    rcases List.mem_cons.mp hx with rfl | hx
    · rw [sumAt_cons, if_pos rfl, sumAt_eq_zero hnodup.1, Nat.add_zero]
    · have hne : key y ≠ key x := fun heq => hnodup.1 (heq ▸ List.mem_map_of_mem hx)
      rw [sumAt_cons, if_neg hne, ih hnodup.2 hx, Nat.zero_add]

theorem size_le_sumAt {xs : List α} {x : α} (hx : x ∈ xs) : size x ≤ sumAt key size xs (key x) := by
  induction xs with
  | nil => cases hx
  | cons y xs ih =>
    rw [sumAt_cons]
    rcases List.mem_cons.mp hx with rfl | hx
    · rw [if_pos rfl]
      exact Nat.le_add_right _ _
    · exact Nat.le_trans (ih hx) (Nat.le_add_left _ _)

theorem sumAt_le_total (xs : List α) (k : κ) : sumAt key size xs k ≤ total size xs := by
  induction xs with
  | nil => exact Nat.le_refl 0
  | cons x xs ih =>
    rw [sumAt_cons, total_cons]
    split
    · omega
    · omega

theorem sum_sumAt {keys : List κ} (hnodup : keys.Nodup) {xs : List α}
    (hkeys : ∀ x ∈ xs, key x ∈ keys) : (keys.map (sumAt key size xs)).sum = total size xs := by
  induction xs with
  | nil =>
    apply List.sum_eq_zero
    intro n hn
    obtain ⟨k, _, rfl⟩ := List.mem_map.mp hn
    rfl
  | cons x xs ih =>
    have hone : (keys.map fun k => if key x = k then size x else 0).sum = size x := by
      have hmem := hkeys x List.mem_cons_self
      clear ih hkeys
      induction keys with
      | nil => cases hmem
      | cons k keys ih =>
        rw [List.nodup_cons] at hnodup
        rw [List.map_cons, List.sum_cons]
        by_cases heq : key x = k
        · have hrest : (keys.map fun k => if key x = k then size x else 0).sum = 0 := by
            apply List.sum_eq_zero
            intro n hn
            obtain ⟨k', hk', rfl⟩ := List.mem_map.mp hn
            exact if_neg fun (heq' : key x = k') => hnodup.1 (heq ▸ heq'.symm ▸ hk')
          rw [if_pos heq, hrest, Nat.add_zero]
        · rw [if_neg heq, ih hnodup.2 ((List.mem_cons.mp hmem).resolve_left heq), Nat.zero_add]
    have hsplit : keys.map (sumAt key size (x :: xs)) =
        keys.map fun k => (if key x = k then size x else 0) + sumAt key size xs k :=
      List.map_congr_left fun k _ => sumAt_cons x xs k
    rw [hsplit, List.sum_map_add, hone, total_cons, ← ih fun y hy =>
      hkeys y (List.mem_cons_of_mem x hy)]

omit [DecidableEq κ] in
theorem sum_keys_eq {keys : List κ} {cs : List α} (hnodup : keys.Nodup)
    (hcs : (cs.map key).Nodup) (hmem : ∀ k, k ∈ cs.map key ↔ k ∈ keys) (f : κ → Nat) :
    (cs.map fun c => f (key c)).sum = (keys.map f).sum := by
  have hperm : (cs.map key).Perm keys := (List.perm_ext_iff_of_nodup hcs hnodup).mpr hmem
  have hmap : (cs.map fun c => f (key c)) = (cs.map key).map f := by
    rw [List.map_map]
    rfl
  rw [hmap]
  exact (hperm.map f).sum_eq

end SmlnjLlvm.KeySums
