import SmlnjLlvm.Library.StablePartition
import SmlnjLlvm.Scheduling.TopologicalSort

/-!
# Shifting the visited units

The units between two indices that were visited move behind the others, and the
two vectors stay inverse to each other.
-/

namespace SmlnjLlvm.TopologicalSort

open Nat StablePartition

/-- The two vectors are inverse permutations. -/
structure Inverse (t : Topo) : Prop where
  index_lt : ∀ n < t.size, t.Node2Index n < t.size
  node_lt : ∀ i < t.size, t.Index2Node i < t.size
  node_index : ∀ n < t.size, t.Index2Node (t.Node2Index n) = n
  index_node : ∀ i < t.size, t.Node2Index (t.Index2Node i) = i

theorem Inverse.injective {t : Topo} (h : Inverse t) {m n : Nat} (hm : m < t.size) (hn : n < t.size)
    (heq : t.Node2Index m = t.Node2Index n) : m = n := by
  rw [← h.node_index m hm, heq, h.node_index n hn]

/-- The nodes at the indices in `S` have been given the indices `m`. -/
structure Placed (t t' : Topo) (m : Nat → Nat) (S : Nat → Prop) : Prop where
  rest : t' = { t with Index2Node := t'.Index2Node, Node2Index := t'.Node2Index }
  index : ∀ k < t.size, S k → t'.Node2Index (t.Index2Node k) = m k
  node : ∀ k < t.size, S k → t'.Index2Node (m k) = t.Index2Node k
  index_else : ∀ k < t.size, ¬S k → t'.Node2Index (t.Index2Node k) = k
  node_else : ∀ i, (∀ k < t.size, S k → m k ≠ i) → t'.Index2Node i = t.Index2Node i

namespace Placed

variable {t t' : Topo} {m : Nat → Nat} {S : Nat → Prop}

theorem start (ht : Inverse t) (m : Nat → Nat) : Placed t t m fun _ => False :=
  ⟨rfl, fun _ _ h => h.elim, fun _ _ h => h.elim, fun k hk _ => ht.index_node k hk, fun _ _ => rfl⟩

theorem congr (h : Placed t t' m S) {S' : Nat → Prop} (hS : ∀ k < t.size, S k ↔ S' k) :
    Placed t t' m S' := by
  refine ⟨h.rest, fun k hk hk' => ?_, fun k hk hk' => ?_, fun k hk hk' => ?_, fun i hi => ?_⟩
  · exact h.index k hk ((hS k hk).mpr hk')
  · exact h.node k hk ((hS k hk).mpr hk')
  · exact h.index_else k hk (mt (hS k hk).mp hk')
  · exact h.node_else i fun k hk hk' => hi k hk ((hS k hk).mp hk')

theorem allocate (h : Placed t t' m S) (ht : Inverse t)
    (hinj : ∀ j < t.size, ∀ k < t.size, m j = m k → j = k) {k : Nat} (hk : k < t.size) :
    Placed t (Allocate t' (t.Index2Node k) (m k)) m fun j => S j ∨ j = k := by
  have hnode {j : Nat} (hj : j < t.size) (hjk : j ≠ k) : t.Index2Node j ≠ t.Index2Node k := by
    intro heq
    apply hjk
    rw [← ht.index_node j hj, heq, ht.index_node k hk]
  refine ⟨?_, fun j hj hj' => ?_, fun j hj hj' => ?_, fun j hj hj' => ?_, fun i hi => ?_⟩
  · rw [Allocate, h.rest]
  · simp only [Allocate]
    by_cases hjk : j = k
    · rw [hjk, Function.update_self]
    · rw [Function.update_of_ne (hnode hj hjk)]
      exact h.index j hj (hj'.resolve_right hjk)
  · simp only [Allocate]
    by_cases hjk : j = k
    · rw [hjk, Function.update_self]
    · rw [Function.update_of_ne fun heq => hjk (hinj j hj k hk heq)]
      exact h.node j hj (hj'.resolve_right hjk)
  · simp only [Allocate]
    obtain ⟨hSj, hjk⟩ := not_or.mp hj'
    rw [Function.update_of_ne (hnode hj hjk)]
    exact h.index_else j hj hSj
  · simp only [Allocate]
    rw [Function.update_of_ne (Ne.symm (hi k hk (Or.inr rfl)))]
    exact h.node_else i fun j hj hSj => hi j hj (Or.inl hSj)

theorem inverse (h : Placed t t' m fun _ => True) (ht : Inverse t)
    (hmaps : ∀ k < t.size, m k < t.size) (hinj : ∀ j < t.size, ∀ k < t.size, m j = m k → j = k) :
    Inverse t' ∧ ∀ n < t.size, t'.Node2Index n = m (t.Node2Index n) := by
  have hsize : t'.size = t.size := by rw [h.rest]
  have hindex (n : Nat) (hn : n < t.size) : t'.Node2Index n = m (t.Node2Index n) := by
    rw [← h.index _ (ht.index_lt n hn) trivial, ht.node_index n hn]
  refine ⟨⟨fun n hn => ?_, fun i hi => ?_, fun n hn => ?_, fun i hi => ?_⟩, hindex⟩
  all_goals rw [hsize] at *
  · rw [hindex n hn]
    exact hmaps _ (ht.index_lt n hn)
  · obtain ⟨k, hk, rfl⟩ := exists_eq_of_injOn hmaps hinj hi
    rw [h.node k hk trivial]
    exact ht.node_lt k hk
  · rw [hindex n hn, h.node _ (ht.index_lt n hn) trivial, ht.node_index n hn]
  · obtain ⟨k, hk, rfl⟩ := exists_eq_of_injOn hmaps hinj hi
    rw [h.node k hk trivial, h.index k hk trivial]

end Placed

/-! ## The loops -/

section

variable {t : Topo} {Visited : Nat → Bool} {LowerBound UpperBound : Nat}

/-- The indices in the region whose nodes were visited. -/
abbrev Marked (t : Topo) (Visited : Nat → Bool) (LowerBound k : Nat) : Prop :=
  LowerBound ≤ k ∧ Visited (t.Index2Node k) = true

/-- The new index of the node at the index `k`. -/
def shifted (t : Topo) (Visited : Nat → Bool) (LowerBound UpperBound k : Nat) : Nat :=
  moved (Marked t Visited LowerBound) LowerBound (UpperBound + 1) k

theorem shifted_injective {j k : Nat} (h : shifted t Visited LowerBound UpperBound j =
    shifted t Visited LowerBound UpperBound k) : j = k :=
  moved_injective (fun _ hk => hk.1) h

/-- After the indices below `i`: the unvisited nodes have moved down, and the others are set aside. -/
structure Scanned (t : Topo) (Visited : Nat → Bool) (LowerBound UpperBound i : Nat)
    (p : (Topo × (Nat → Bool)) × (List Nat × Nat)) : Prop where
  placed : Placed t p.1.1 (shifted t Visited LowerBound UpperBound) fun k =>
    LowerBound ≤ k ∧ k < i ∧ ¬Marked t Visited LowerBound k
  visited : ∀ k < t.size, i ≤ k → p.1.2 (t.Index2Node k) = Visited (t.Index2Node k)
  aside : p.2.1 = ((List.range' LowerBound (i - LowerBound)).filter fun k =>
    decide (Marked t Visited LowerBound k)).map t.Index2Node
  shift : p.2.2 = count (Marked t Visited LowerBound) i

theorem shiftTurn_scanned (ht : Inverse t) {i : Nat} (hlo : LowerBound ≤ i) (hhi : i ≤ UpperBound)
    (hsize : i < t.size) {p : (Topo × (Nat → Bool)) × (List Nat × Nat)}
    (h : Scanned t Visited LowerBound UpperBound i p) :
    Scanned t Visited LowerBound UpperBound (i + 1) (shiftTurn p i) := by
  have hread : p.1.1.Index2Node i = t.Index2Node i := by
    apply h.placed.node_else
    intro k hk hS
    rw [shifted, moved_unmarked hS.1 (by omega) hS.2.2]
    omega
  have hrange : List.range' LowerBound (i + 1 - LowerBound) =
      List.range' LowerBound (i - LowerBound) ++ [i] := by
    rw [show i + 1 - LowerBound = i - LowerBound + 1 by omega, List.range'_concat]
    congr 2
    omega
  have hlater {k : Nat} (hk : k < t.size) (hik : i + 1 ≤ k) : t.Index2Node k ≠ t.Index2Node i := by
    intro heq
    have hsame := ht.index_node k hk
    rw [heq, ht.index_node i hsize] at hsame
    omega
  unfold shiftTurn
  simp only [hread]
  rw [h.visited i hsize (Nat.le_refl i)]
  by_cases hvisited : Visited (t.Index2Node i) = true
  · have hmarked : Marked t Visited LowerBound i := ⟨hlo, hvisited⟩
    rw [if_pos hvisited]
    refine ⟨h.placed.congr fun k _ => ?_, fun k hk hik => ?_, ?_, ?_⟩
    · constructor
      · exact fun hS => ⟨hS.1, by omega, hS.2.2⟩
      · intro hS
        have hne : k ≠ i := by
          rintro rfl
          exact hS.2.2 hmarked
        exact ⟨hS.1, by omega, hS.2.2⟩
    · show Function.update p.1.2 (t.Index2Node i) false (t.Index2Node k) = Visited (t.Index2Node k)
      rw [Function.update_of_ne (hlater hk hik)]
      exact h.visited k hk (by omega)
    · have hlast : [i].filter (fun k => decide (Marked t Visited LowerBound k)) = [i] :=
        List.filter_cons_of_pos (decide_eq_true hmarked)
      rw [hrange, List.filter_append, List.map_append, ← h.aside, hlast]
      rfl
    · rw [count_succ, if_pos hmarked, ← h.shift]
  · have hmarked : ¬Marked t Visited LowerBound i := fun hm => hvisited hm.2
    have hindex : i - p.2.2 = shifted t Visited LowerBound UpperBound i := by
      rw [shifted, moved_unmarked hlo (by omega) hmarked, h.shift]
    rw [if_neg hvisited, hindex]
    refine ⟨?_, fun k hk hik => h.visited k hk (by omega), ?_, ?_⟩
    · refine (h.placed.allocate ht (fun _ _ _ _ => shifted_injective) hsize).congr fun k _ => ?_
      constructor
      · rintro (hS | rfl)
        · exact ⟨hS.1, by omega, hS.2.2⟩
        · exact ⟨hlo, by omega, hmarked⟩
      · intro hS
        by_cases hk : k = i
        · exact Or.inr hk
        · exact Or.inl ⟨hS.1, by omega, hS.2.2⟩
    · have hnone : [i].filter (fun k => decide (Marked t Visited LowerBound k)) = [] :=
        List.filter_cons_of_neg (by simpa using hmarked)
      rw [hrange, List.filter_append, List.map_append, ← h.aside, hnone, List.map_nil,
        List.append_nil]
    · rw [count_succ, if_neg hmarked, ← h.shift, Nat.add_zero]

theorem shiftTurns_scanned (ht : Inverse t) (hlo : LowerBound ≤ UpperBound)
    (hhi : UpperBound < t.size) :
    Scanned t Visited LowerBound UpperBound (UpperBound + 1)
      ((List.range' LowerBound (UpperBound + 1 - LowerBound)).foldl shiftTurn
        ((t, Visited), ([], 0))) := by
  suffices h : ∀ n, LowerBound + n ≤ UpperBound + 1 →
      Scanned t Visited LowerBound UpperBound (LowerBound + n)
        ((List.range' LowerBound n).foldl shiftTurn ((t, Visited), ([], 0))) by
    have hall := h (UpperBound + 1 - LowerBound) (by omega)
    rwa [show LowerBound + (UpperBound + 1 - LowerBound) = UpperBound + 1 by omega] at hall
  intro n hn
  induction n with
  | zero =>
    refine ⟨(Placed.start ht _).congr fun k _ => ?_, fun _ _ _ => rfl, by simp, ?_⟩
    · constructor
      · exact False.elim
      · intro hS
        omega
    · symm
      exact count_iff_forall_not.mpr fun k hk hmarked => absurd hmarked.1 (by omega)
  | succ n ih =>
    rw [List.range'_concat, List.foldl_append, Nat.one_mul]
    have hle : LowerBound + n ≤ UpperBound := by omega
    exact shiftTurn_scanned ht (Nat.le_add_right _ _) hle (Nat.lt_of_le_of_lt hle hhi)
      (ih (Nat.le_succ_of_le hle))

theorem allocateAside_placed (ht : Inverse t) (hhi : UpperBound < t.size) {shift : Nat}
    (hshift : shift = count (Marked t Visited LowerBound) (UpperBound + 1)) (n a : Nat)
    (ha : LowerBound ≤ a) (hn : a + n = UpperBound + 1) {t' : Topo} {S : Nat → Prop}
    (h : Placed t t' (shifted t Visited LowerBound UpperBound) S) :
    Placed t (((((List.range' a n).filter fun k =>
        decide (Marked t Visited LowerBound k)).map t.Index2Node).foldl
          (fun q LI => (Allocate q.1 LI (q.2 - shift), q.2 + 1))
          (t', UpperBound + 1 + count (Marked t Visited LowerBound) a)).1)
      (shifted t Visited LowerBound UpperBound)
      fun k => S k ∨ a ≤ k ∧ k ≤ UpperBound ∧ Marked t Visited LowerBound k := by
  induction n generalizing a t' S with
  | zero =>
    refine h.congr fun k _ => ?_
    constructor
    · exact Or.inl
    · rintro (hS | hlast)
      · exact hS
      · omega
  | succ n ih =>
    rw [List.range'_succ]
    by_cases hmarked : Marked t Visited LowerBound a
    · have hindex : UpperBound + 1 + count (Marked t Visited LowerBound) a - shift =
          shifted t Visited LowerBound UpperBound a := by
        rw [shifted, moved_marked ha (by omega) hmarked, hshift]
      have hcons : (a :: List.range' (a + 1) n).filter
          (fun k => decide (Marked t Visited LowerBound k)) =
            a :: (List.range' (a + 1) n).filter fun k => decide (Marked t Visited LowerBound k) :=
        List.filter_cons_of_pos (decide_eq_true hmarked)
      have hnext : UpperBound + 1 + count (Marked t Visited LowerBound) a + 1 =
          UpperBound + 1 + count (Marked t Visited LowerBound) (a + 1) := by
        rw [count_succ, if_pos hmarked, Nat.add_assoc]
      rw [hcons, List.map_cons, List.foldl_cons]
      simp only [hindex, hnext]
      refine (ih (a + 1) (by omega) (by omega)
        (h.allocate ht (fun _ _ _ _ => shifted_injective) (by omega))).congr fun k _ => ?_
      constructor
      · rintro ((hS | rfl) | hlater)
        · exact Or.inl hS
        · exact Or.inr ⟨Nat.le_refl k, by omega, hmarked⟩
        · exact Or.inr ⟨by omega, hlater.2⟩
      · rintro (hS | hlater)
        · exact Or.inl (Or.inl hS)
        · by_cases hk : k = a
          · exact Or.inl (Or.inr hk)
          · exact Or.inr ⟨by omega, hlater.2⟩
    · have hcons : (a :: List.range' (a + 1) n).filter
          (fun k => decide (Marked t Visited LowerBound k)) =
            (List.range' (a + 1) n).filter fun k => decide (Marked t Visited LowerBound k) :=
        List.filter_cons_of_neg (by simpa using hmarked)
      rw [hcons,
        show count (Marked t Visited LowerBound) a = count (Marked t Visited LowerBound) (a + 1) by
          rw [count_succ, if_neg hmarked, Nat.add_zero]]
      refine (ih (a + 1) (by omega) (by omega) h).congr fun k _ => ?_
      constructor
      · rintro (hS | hlater)
        · exact Or.inl hS
        · exact Or.inr ⟨by omega, hlater.2⟩
      · rintro (hS | hlater)
        · exact Or.inl hS
        · have hne : k ≠ a := by
            rintro rfl
            exact hmarked hlater.2.2
          exact Or.inr ⟨by omega, hlater.2⟩

theorem Shift_spec (ht : Inverse t) (hlo : LowerBound ≤ UpperBound) (hhi : UpperBound < t.size) :
    (∃ I2N N2I, Shift t Visited LowerBound UpperBound =
        { t with Index2Node := I2N, Node2Index := N2I }) ∧
      Inverse (Shift t Visited LowerBound UpperBound) ∧
      ∀ n < t.size, (Shift t Visited LowerBound UpperBound).Node2Index n =
        shifted t Visited LowerBound UpperBound (t.Node2Index n) := by
  have hscanned := @shiftTurns_scanned _ Visited _ _ ht hlo hhi
  unfold Shift
  obtain ⟨p, hp⟩ : ∃ p, p = (List.range' LowerBound (UpperBound + 1 - LowerBound)).foldl shiftTurn
    ((t, Visited), ([], 0)) := ⟨_, rfl⟩
  rw [← hp] at hscanned ⊢
  have hzero : count (Marked t Visited LowerBound) LowerBound = 0 :=
    count_iff_forall_not.mpr fun k hk hmarked => absurd hmarked.1 (by omega)
  have hplaced := allocateAside_placed ht hhi hscanned.shift (UpperBound + 1 - LowerBound) LowerBound
    (Nat.le_refl _) (by omega) hscanned.placed
  rw [← hscanned.aside, hzero, Nat.add_zero] at hplaced
  generalize (p.2.1.foldl (fun q LI => (Allocate q.1 LI (q.2 - p.2.2), q.2 + 1))
    (p.1.1, UpperBound + 1)).1 = t' at hplaced ⊢
  -- What is outside the region keeps its index.
  have hall : Placed t t' (shifted t Visited LowerBound UpperBound) fun _ => True := by
    refine ⟨hplaced.rest, fun k hk _ => ?_, fun k hk _ => ?_, fun k _ h => absurd trivial h,
      fun i hi => hplaced.node_else i fun k hk _ => hi k hk trivial⟩
    · by_cases hin : LowerBound ≤ k ∧ k < UpperBound + 1
      · refine hplaced.index k hk ?_
        by_cases hmarked : Marked t Visited LowerBound k
        · exact Or.inr ⟨hin.1, by omega, hmarked⟩
        · exact Or.inl ⟨hin.1, hin.2, hmarked⟩
      · rw [shifted, moved_outside hin]
        refine hplaced.index_else k hk fun hS => hin ?_
        omega
    · by_cases hin : LowerBound ≤ k ∧ k < UpperBound + 1
      · refine hplaced.node k hk ?_
        by_cases hmarked : Marked t Visited LowerBound k
        · exact Or.inr ⟨hin.1, by omega, hmarked⟩
        · exact Or.inl ⟨hin.1, hin.2, hmarked⟩
      · rw [shifted, moved_outside hin]
        refine hplaced.node_else k fun j _ hS heq => hin ?_
        rw [← heq]
        exact moved_mem (fun _ hk => hk.1) (show LowerBound ≤ j by omega) (by omega)
  refine ⟨⟨_, _, hall.rest⟩, hall.inverse ht (fun k hk => ?_) fun _ _ _ _ => shifted_injective⟩
  by_cases hin : LowerBound ≤ k ∧ k < UpperBound + 1
  · have hmem := moved_mem (p := Marked t Visited LowerBound) (fun _ hk => hk.1) hin.1 hin.2
    exact Nat.lt_of_lt_of_le hmem.2 hhi
  · rwa [shifted, moved_outside hin]

end

end SmlnjLlvm.TopologicalSort
