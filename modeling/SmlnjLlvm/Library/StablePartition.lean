import Mathlib.Data.Fintype.EquivFin
import Mathlib.Data.Nat.Count

/-!
# Stable partition of an interval

The positions in an interval that are marked move to its end, and the others
move down, each kept in their order.
-/

namespace SmlnjLlvm.StablePartition

open Nat

variable (p : Nat → Prop) [DecidablePred p] (lo hi : Nat)

/-- Where the position `k` goes. -/
def moved (k : Nat) : Nat :=
  if lo ≤ k ∧ k < hi then if p k then hi + count p k - count p hi else k - count p k else k

variable {p lo hi}

theorem moved_outside {k : Nat} (h : ¬(lo ≤ k ∧ k < hi)) : moved p lo hi k = k := if_neg h

theorem moved_marked {k : Nat} (hlo : lo ≤ k) (hhi : k < hi) (hk : p k) :
    moved p lo hi k = hi + count p k - count p hi := by
  rw [moved, if_pos ⟨hlo, hhi⟩, if_pos hk]

theorem moved_unmarked {k : Nat} (hlo : lo ≤ k) (hhi : k < hi) (hk : ¬p k) :
    moved p lo hi k = k - count p k := by
  rw [moved, if_pos ⟨hlo, hhi⟩, if_neg hk]

theorem count_le_add {a b : Nat} (h : a ≤ b) : count p b ≤ count p a + (b - a) := by
  obtain ⟨d, rfl⟩ := Nat.exists_eq_add_of_le h
  rw [count_add, Nat.add_sub_cancel_left]
  exact Nat.add_le_add_left (count_le _) _

theorem count_lt_add {a b : Nat} (h : a < b) (ha : ¬p a) : count p b < count p a + (b - a) := by
  have hle := count_le_add (p := p) (show a + 1 ≤ b from h)
  rw [count_succ, if_neg ha] at hle
  omega

theorem count_le_sub (hp : ∀ k, p k → lo ≤ k) {k : Nat} (hk : lo ≤ k) : count p k ≤ k - lo := by
  have hle := count_le_add (p := p) hk
  have hzero : count p lo = 0 := count_iff_forall_not.mpr fun m hm hpm =>
    absurd (hp m hpm) (Nat.not_le.mpr hm)
  omega

theorem moved_mem (hp : ∀ k, p k → lo ≤ k) {k : Nat} (hlo : lo ≤ k) (hhi : k < hi) :
    lo ≤ moved p lo hi k ∧ moved p lo hi k < hi := by
  have hk := count_le_sub hp hlo
  have hall := count_le_sub hp (show lo ≤ hi by omega)
  by_cases hpk : p k
  · rw [moved_marked hlo hhi hpk]
    have hlt := count_strict_mono hpk hhi
    omega
  · rw [moved_unmarked hlo hhi hpk]
    omega

theorem moved_lt_of_unmarked_marked (hp : ∀ k, p k → lo ≤ k) {j k : Nat} (hj : lo ≤ j)
    (hj' : j < hi) (hk : lo ≤ k) (hk' : k < hi) (hpj : ¬p j) (hpk : p k) :
    moved p lo hi j < moved p lo hi k := by
  rw [moved_unmarked hj hj' hpj, moved_marked hk hk' hpk]
  have hlt := count_lt_add hj' hpj
  have hle := count_le_sub hp hj
  omega

theorem moved_lt (hp : ∀ k, p k → lo ≤ k) {j k : Nat} (hjk : j < k)
    (h : lo ≤ j → k < hi → p j → p k) : moved p lo hi j < moved p lo hi k := by
  by_cases hj : lo ≤ j ∧ j < hi
  · have hmem := moved_mem hp hj.1 hj.2
    by_cases hk : lo ≤ k ∧ k < hi
    · have hmono := count_monotone p (Nat.le_of_lt hjk)
      by_cases hpj : p j
      · have hpk := h hj.1 hk.2 hpj
        rw [moved_marked hj.1 hj.2 hpj, moved_marked hk.1 hk.2 hpk]
        have hlt := count_strict_mono hpj hjk
        have hall := count_le_sub hp (show lo ≤ hi by omega)
        omega
      · by_cases hpk : p k
        · exact moved_lt_of_unmarked_marked hp hj.1 hj.2 hk.1 hk.2 hpj hpk
        · rw [moved_unmarked hj.1 hj.2 hpj, moved_unmarked hk.1 hk.2 hpk]
          have hlt := count_lt_add hjk hpj
          have hle := count_le_sub hp hj.1
          omega
    · rw [moved_outside hk]
      omega
  · rw [moved_outside hj]
    by_cases hk : lo ≤ k ∧ k < hi
    · have hmem := moved_mem hp hk.1 hk.2
      omega
    · rwa [moved_outside hk]

theorem moved_injective (hp : ∀ k, p k → lo ≤ k) {j k : Nat}
    (h : moved p lo hi j = moved p lo hi k) : j = k := by
  by_contra hne
  wlog hlt : j < k generalizing j k
  · exact this h.symm (Ne.symm hne) (by omega)
  by_cases hback : lo ≤ j ∧ k < hi ∧ p j ∧ ¬p k
  · obtain ⟨hj, hk, hpj, hpk⟩ := hback
    have hless := moved_lt_of_unmarked_marked hp (Nat.le_of_lt (Nat.lt_of_le_of_lt hj hlt)) hk hj
      (Nat.lt_trans hlt hk) hpk hpj
    omega
  · have hless := moved_lt hp hlt fun hj hk hpj => by
      by_contra hpk
      exact hback ⟨hj, hk, hpj, hpk⟩
    omega

theorem exists_eq_of_injOn {f : Nat → Nat} {n : Nat} (hmaps : ∀ k < n, f k < n)
    (hinj : ∀ j < n, ∀ k < n, f j = f k → j = k) {i : Nat} (hi : i < n) : ∃ k < n, f k = i := by
  have hinjective : Function.Injective (fun k : Fin n => (⟨f k, hmaps k k.isLt⟩ : Fin n)) := by
    intro j k hjk
    exact Fin.ext (hinj j j.isLt k k.isLt (Fin.mk.inj hjk))
  obtain ⟨k, hk⟩ := Finite.surjective_of_injective hinjective ⟨i, hi⟩
  exact ⟨k, k.isLt, congrArg Fin.val hk⟩

end SmlnjLlvm.StablePartition
