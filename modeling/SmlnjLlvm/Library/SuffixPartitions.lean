import Mathlib.Data.List.Basic
import Mathlib.Tactic.Linarith

/-!
# Best partitions of the suffixes of a sequence

The places `i, …, N - 1` are cut into parts of successive places. A partition is
better than another one if it has fewer parts, or as many with a higher score.
The first part of a best partition is followed by a best partition of what is
left, so a table of best values for the later suffixes gives the next one.
-/

namespace SmlnjLlvm.SuffixPartitions

variable {N i j : ℕ} {part : ℕ → ℕ → Prop} {score : ℕ → ℕ} {ps : List (ℕ × ℕ)}

/-- The parts, each with its first and its last place, are the places from `i` on. -/
inductive Covers (N : ℕ) (part : ℕ → ℕ → Prop) : ℕ → List (ℕ × ℕ) → Prop
  | nil : Covers N part N []
  | cons {i j : ℕ} {ps : List (ℕ × ℕ)} : i ≤ j → j < N → part i j → Covers N part (j + 1) ps →
      Covers N part i ((i, j) :: ps)

/-- The parts from `First` on, by the last place of each. A last place before the first one is no
part. -/
def follow (N : ℕ) (last : ℕ → ℕ) (First : ℕ) : Option (List (ℕ × ℕ)) :=
  if First < N then
    if First ≤ last First then
      (follow N last (last First + 1)).map fun ps => (First, last First) :: ps
    else none
  else some []
termination_by N - First

def places (p : ℕ × ℕ) : List ℕ := List.range' p.1 (p.2 + 1 - p.1)

theorem Covers.le (h : Covers N part i ps) : i ≤ N := by
  cases h with
  | nil => exact Nat.le_refl N
  | cons hij hjN => exact Nat.le_trans hij (Nat.le_of_lt hjN)

theorem Covers.flatMap_places (h : Covers N part i ps) :
    ps.flatMap places = List.range' i (N - i) := by
  induction h with
  | nil => simp
  | @cons i j ps hij hjN _ _ ih =>
    have hsplit : N - i = (j + 1 - i) + (N - (j + 1)) := by omega
    rw [List.flatMap_cons, ih, places, hsplit, ← List.range'_append_1,
      show i + (j + 1 - i) = j + 1 by omega]

theorem Covers.forall_part (h : Covers N part i ps) :
    ∀ p ∈ ps, p.1 ≤ p.2 ∧ p.2 < N ∧ part p.1 p.2 := by
  induction h with
  | nil => simp
  | cons hij hjN hpart _ ih =>
    intro p hp
    rcases List.mem_cons.mp hp with rfl | hp
    · exact ⟨hij, hjN, hpart⟩
    · exact ih p hp

theorem covers_iff : Covers N part i ps ↔ i ≤ N ∧ ps.flatMap places = List.range' i (N - i) ∧
    ∀ p ∈ ps, p.1 ≤ p.2 ∧ p.2 < N ∧ part p.1 p.2 := by
  refine ⟨fun h => ⟨h.le, h.flatMap_places, h.forall_part⟩, ?_⟩
  rintro ⟨hle, hplaces, hparts⟩
  induction ps generalizing i with
  | nil =>
    have hlength := congrArg List.length hplaces
    simp only [List.flatMap_nil, List.length_nil, List.length_range'] at hlength
    obtain rfl : i = N := by omega
    exact Covers.nil
  | cons p ps ih =>
    obtain ⟨a, b⟩ := p
    obtain ⟨hab, hbN, hpart⟩ := hparts (a, b) List.mem_cons_self
    have hfirst : List.range' a (b + 1 - a) = a :: List.range' (a + 1) (b - a) := by
      rw [show b + 1 - a = b - a + 1 by omega, List.range'_succ]
    rw [List.flatMap_cons, places, hfirst, List.cons_append] at hplaces
    rcases Nat.eq_zero_or_pos (N - i) with hzero | hpos
    · rw [hzero] at hplaces
      cases hplaces
    · rw [show N - i = N - i - 1 + 1 by omega, List.range'_succ] at hplaces
      obtain ⟨rfl, hrest⟩ := List.cons.inj hplaces
      rw [show N - a - 1 = (b - a) + (N - (b + 1)) by omega, ← List.range'_append_1,
        List.append_cancel_left_eq, show a + 1 + (b - a) = b + 1 by omega] at hrest
      exact Covers.cons hab hbN hpart
        (ih (by omega) hrest fun q hq => hparts q (List.mem_cons_of_mem _ hq))

/-- The number of parts and the sum of the scores, which depend on the sizes. -/
def cost (score : ℕ → ℕ) (ps : List (ℕ × ℕ)) : ℕ × ℕ :=
  (ps.length, (ps.map fun p => score (p.2 + 1 - p.1)).sum)

/-- The value `a` is as good as the value `b`: fewer parts, or as many with no lower score. -/
def AsGood (a b : ℕ × ℕ) : Prop := a.1 < b.1 ∨ a.1 = b.1 ∧ b.2 ≤ a.2

/-- A part before others. -/
def withPart (score : ℕ → ℕ) (i j : ℕ) (rest : ℕ × ℕ) : ℕ × ℕ :=
  (1 + rest.1, rest.2 + score (j + 1 - i))

theorem AsGood.refl (a : ℕ × ℕ) : AsGood a a := Or.inr ⟨rfl, Nat.le_refl _⟩

theorem AsGood.trans {a b c : ℕ × ℕ} (hab : AsGood a b) (hbc : AsGood b c) : AsGood a c := by
  unfold AsGood at *
  omega

theorem AsGood.withPart {a b : ℕ × ℕ} (h : AsGood a b) (score : ℕ → ℕ) (i j : ℕ) :
    AsGood (withPart score i j a) (withPart score i j b) := by
  unfold AsGood SuffixPartitions.withPart at *
  omega

theorem cost_cons (score : ℕ → ℕ) (i j : ℕ) (ps : List (ℕ × ℕ)) :
    cost score ((i, j) :: ps) = withPart score i j (cost score ps) := by
  unfold cost withPart
  rw [List.length_cons, List.map_cons, List.sum_cons, Nat.add_comm ps.length, Nat.add_comm (score _)]

/-- A table of values from `i` on, in which each value is reached by a first part, and is as good
as all others. The value of the empty suffix is zero. -/
structure Solves (N : ℕ) (part : ℕ → ℕ → Prop) (score : ℕ → ℕ) (best : ℕ → ℕ × ℕ) (last : ℕ → ℕ)
    (i : ℕ) : Prop where
  empty : best N = (0, 0)
  last_mem : ∀ k, i ≤ k → k < N → k ≤ last k ∧ last k < N ∧ part k (last k)
  reached : ∀ k, i ≤ k → k < N → best k = withPart score k (last k) (best (last k + 1))
  asGood : ∀ k, i ≤ k → k < N → ∀ j, k ≤ j → j < N → part k j →
    AsGood (best k) (withPart score k j (best (j + 1)))

variable {best : ℕ → ℕ × ℕ} {last : ℕ → ℕ}

theorem Solves.congr {best' : ℕ → ℕ × ℕ} {last' : ℕ → ℕ} (h : Solves N part score best last i)
    (hbest : ∀ k, i ≤ k → best' k = best k) (hlast : ∀ k, i ≤ k → last' k = last k) (hiN : i ≤ N) :
    Solves N part score best' last' i where
  empty := (hbest N hiN).trans h.empty
  last_mem k hk hkN := by
    rw [hlast k hk]
    exact h.last_mem k hk hkN
  reached k hk hkN := by
    have hle := (h.last_mem k hk hkN).1
    rw [hlast k hk, hbest k hk, hbest _ (by omega)]
    exact h.reached k hk hkN
  asGood k hk hkN j hkj hjN hpart := by
    rw [hbest k hk, hbest _ (by omega)]
    exact h.asGood k hk hkN j hkj hjN hpart

theorem Solves.extend (h : Solves N part score best last (i + 1))
    (hmem : i ≤ last i ∧ last i < N ∧ part i (last i))
    (hreached : best i = SuffixPartitions.withPart score i (last i) (best (last i + 1)))
    (hgood : ∀ j, i ≤ j → j < N → part i j →
      AsGood (best i) (SuffixPartitions.withPart score i j (best (j + 1)))) :
    Solves N part score best last i where
  empty := h.empty
  last_mem k hk hkN := by
    rcases Nat.eq_or_lt_of_le hk with rfl | hlt
    · exact hmem
    · exact h.last_mem k hlt hkN
  reached k hk hkN := by
    rcases Nat.eq_or_lt_of_le hk with rfl | hlt
    · exact hreached
    · exact h.reached k hlt hkN
  asGood k hk hkN := by
    rcases Nat.eq_or_lt_of_le hk with rfl | hlt
    · exact hgood
    · exact h.asGood k hlt hkN

theorem Solves.le_cost (h : Solves N part score best last i) {k : ℕ} (hk : i ≤ k)
    (hps : Covers N part k ps) : AsGood (best k) (cost score ps) := by
  induction hps with
  | nil =>
    rw [h.empty]
    exact AsGood.refl _
  | @cons k j ps hkj hjN hpart _ ih =>
    have hfirst := h.asGood k hk (by omega) j hkj hjN hpart
    have hrest := (ih (by omega)).withPart score k j
    rw [cost_cons]
    exact hfirst.trans hrest

theorem Solves.follow_covers (h : Solves N part score best last i) {k : ℕ} (hk : i ≤ k)
    (hkN : k ≤ N) :
    ∃ ps, follow N last k = some ps ∧ Covers N part k ps ∧ cost score ps = best k := by
  induction hn : N - k using Nat.strong_induction_on generalizing k with
  | _ n ih =>
    rw [follow.eq_def]
    rcases Nat.lt_or_ge k N with hlt | hge
    · obtain ⟨hle, hlast, hpart⟩ := h.last_mem k hk hlt
      obtain ⟨ps, hfollow, hps, hcost⟩ := ih (N - (last k + 1)) (by omega) (k := last k + 1)
        (by omega) (by omega) rfl
      refine ⟨(k, last k) :: ps, ?_, Covers.cons hle hlast hpart hps, ?_⟩
      · rw [if_pos hlt, if_pos hle, hfollow]
        rfl
      · rw [cost_cons, hcost, ← h.reached k hk hlt]
    · obtain rfl : k = N := by omega
      exact ⟨[], if_neg (Nat.lt_irrefl k), Covers.nil, h.empty.symm⟩

end SmlnjLlvm.SuffixPartitions
