import Mathlib.Order.Interval.Finset.Nat
import Mathlib.Tactic.Common

/-!
# Arcs of a circle of numbers

The numbers below `N` on a circle, and the arcs from one of them up to another.
An arc that holds two points holds one of the two ways between them; this
decides which arcs cover a set that is not an arc itself.
-/

namespace SmlnjLlvm.Arc

/-- From `l` up to `u` and without it, past the end when `u` is not above `l`. -/
def Mem (l u x : Nat) : Prop := (l < u ∧ l ≤ x ∧ x < u) ∨ (u ≤ l ∧ (l ≤ x ∨ x < u))

instance (l u x : Nat) : Decidable (Mem l u x) :=
  inferInstanceAs (Decidable ((l < u ∧ l ≤ x ∧ x < u) ∨ (u ≤ l ∧ (l ≤ x ∨ x < u))))

variable {N l u l' u' x a b p q : Nat}

theorem mem_of_lt (h : l < u) : Mem l u x ↔ l ≤ x ∧ x < u := by
  unfold Mem
  omega

theorem mem_of_ge (h : u ≤ l) : Mem l u x ↔ l ≤ x ∨ x < u := by
  unfold Mem
  omega

theorem mem_left (l u : Nat) : Mem l u l := by
  unfold Mem
  omega

theorem not_mem_right (h : l ≠ u) : ¬Mem l u u := by
  unfold Mem
  omega

theorem mem_swap_iff (h : l ≠ u) : Mem u l x ↔ ¬Mem l u x := by
  unfold Mem
  omega

/-- The number before another on the circle. -/
def pred (N x : Nat) : Nat := if x = 0 then N - 1 else x - 1

theorem pred_lt (hN : 0 < N) (hx : x < N) : pred N x < N := by
  unfold pred
  split <;> omega

theorem not_mem_pred_left (hu : u < N) (h : l ≠ u) : ¬Mem l u (pred N l) := by
  unfold Mem pred
  split <;> omega

theorem mem_pred (hl : l < N) (hx : Mem l u x) (hne : x ≠ l) : Mem l u (pred N x) := by
  unfold Mem pred at *
  split <;> omega

theorem left_unique (hl : l < N) (hu : u < N) (hl' : l' < N) (hne : l ≠ u)
    (h : ∀ x < N, Mem l u x ↔ Mem l' u' x) : l = l' := by
  by_contra hdiff
  have hmem : Mem l' u' l := (h l hl).mp (mem_left l u)
  have hpred : Mem l' u' (pred N l) := mem_pred hl' hmem hdiff
  have hlt : pred N l < N := pred_lt (Nat.zero_lt_of_lt hl) hl
  exact not_mem_pred_left hu hne ((h _ hlt).mpr hpred)

theorem unique (hl : l < N) (hu : u < N) (hl' : l' < N) (hu' : u' < N) (hne : l ≠ u)
    (hne' : l' ≠ u') (h : ∀ x < N, Mem l u x ↔ Mem l' u' x) : l = l' ∧ u = u' := by
  refine ⟨left_unique hl hu hl' hne h, ?_⟩
  apply left_unique hu hl hu' hne.symm
  intro x hx
  rw [mem_swap_iff hne, mem_swap_iff hne', h x hx]

/-- Four points in the order of the circle, from any of them on. -/
def Cyclic (a p b q : Nat) : Prop :=
  (a < p ∧ p < b ∧ b < q) ∨ (p < b ∧ b < q ∧ q < a) ∨ (b < q ∧ q < a ∧ a < p) ∨
    (q < a ∧ a < p ∧ p < b)

theorem Cyclic.rotate (h : Cyclic a p b q) : Cyclic b q a p := by
  unfold Cyclic at *
  omega

theorem mem_or_mem_of_cyclic (h : Cyclic a p b q) (ha : Mem l u a) (hb : Mem l u b) :
    Mem l u p ∨ Mem l u q := by
  unfold Cyclic Mem at *
  omega

theorem subset_of_lt (hl : l < N) (hu : u < N) (h : p < q) (hq : q < N) :
    (∀ x < N, Mem l u x → Mem p q x) ↔ l < u ∧ p ≤ l ∧ u ≤ q := by
  constructor
  · intro hsub
    have hfirst := hsub l hl (mem_left l u)
    have hlast := hsub (u - 1)
    have htop := hsub (N - 1)
    unfold Mem at *
    omega
  · intro hbounds x _ hx
    unfold Mem at *
    omega

theorem subset_of_gt (hu : u < N) (hlu : l < u) (h : q < p) :
    (∀ x < N, Mem l u x → Mem p q x) ↔ u ≤ q ∨ p ≤ l := by
  constructor
  · intro hsub
    have hgap := hsub (max l q)
    unfold Mem at *
    omega
  · intro hbounds x _ hx
    unfold Mem at *
    omega

theorem subset_of_gt_gt (hu : u < N) (hul : u < l) (hp : p < N) (h : q < p) :
    (∀ x < N, Mem l u x → Mem p q x) ↔ u ≤ q ∧ p ≤ l := by
  constructor
  · intro hsub
    have hright := hsub q
    have hleft := hsub (p - 1)
    unfold Mem at *
    omega
  · intro hbounds x _ hx
    unfold Mem at *
    omega

def points (N l u : Nat) : Finset Nat := (Finset.range N).filter (Mem l u)

theorem card_points (hl : l < N) (hu : u < N) (hne : l ≠ u) :
    (points N l u).card = (N - l + u) % N := by
  rcases Nat.lt_or_gt_of_ne hne with hlt | hgt
  · have hset : points N l u = Finset.Ico l u := by
      ext x
      simp only [points, Finset.mem_filter, Finset.mem_range, Finset.mem_Ico, mem_of_lt hlt]
      omega
    have hsum : N - l + u = N + (u - l) := by omega
    rw [hset, Nat.card_Ico, hsum, Nat.add_mod_left, Nat.mod_eq_of_lt (by omega)]
  · have hset : points N l u = Finset.range N \ Finset.Ico u l := by
      ext x
      simp only [points, Finset.mem_filter, Finset.mem_range, Finset.mem_sdiff, Finset.mem_Ico,
        mem_of_ge (Nat.le_of_lt hgt)]
      omega
    have hsub : Finset.Ico u l ⊆ Finset.range N := by
      intro x hx
      rw [Finset.mem_Ico] at hx
      rw [Finset.mem_range]
      omega
    rw [hset, Finset.card_sdiff_of_subset hsub, Finset.card_range, Nat.card_Ico,
      Nat.mod_eq_of_lt (by omega)]
    omega

end SmlnjLlvm.Arc
