import Mathlib.Algebra.BigOperators.Group.Finset.Basic
import Mathlib.Algebra.Order.BigOperators.Group.Finset
import Mathlib.Data.Finset.Card
import Mathlib.Logic.Relation
import Mathlib.Tactic.Linarith

/-!
# Spanning trees

Edges join two nodes each. A colouring of the nodes is merged along an edge, and an
edge within one colour is left out; edges of decreasing weight so select a spanning
tree of the greatest weight.
-/

namespace SmlnjLlvm.SpanningTrees

open Relation

variable {V ε : Type} [DecidableEq V] [DecidableEq ε] (source target : ε → V)

def Joins (T : Finset ε) (x y : V) : Prop := ∃ e ∈ T, source e = x ∧ target e = y

/-- A tree connects the nodes and has one edge less than there are nodes. -/
structure IsSpanningTree (N : Finset V) (E T : Finset ε) : Prop where
  subset : T ⊆ E
  connects : ∀ x ∈ N, ∀ y ∈ N, EqvGen (Joins source target T) x y
  card : T.card = N.card - 1

/-- The colour of the target becomes that of the source. -/
def merge (c : V → V) (e : ε) (x : V) : V := if c x = c (target e) then c (source e) else c x

section Colours

variable {source target} {N : Finset V} {E T F : Finset ε} {c : V → V} {e : ε}

omit [DecidableEq ε] in
theorem merge_congr {x y : V} (h : c x = c y) :
    merge source target c e x = merge source target c e y := by
  simp [merge, h]

omit [DecidableEq ε] in
theorem merge_joins : merge source target c e (source e) = merge source target c e (target e) := by
  simp [merge]

omit [DecidableEq V] [DecidableEq ε] in
theorem eq_of_eqvGen (h : ∀ e ∈ T, c (source e) = c (target e)) {x y : V}
    (hxy : EqvGen (Joins source target T) x y) : c x = c y := by
  induction hxy with
  | rel x y h' =>
    obtain ⟨e, he, rfl, rfl⟩ := h'
    exact h e he
  | refl x => rfl
  | symm x y _ ih => exact ih.symm
  | trans x y z _ _ ih ih' => exact ih.trans ih'

omit [DecidableEq ε] in
theorem card_image_merge (hs : source e ∈ N) (ht : target e ∈ N) (hne : c (source e) ≠ c (target e)) :
    (N.image (merge source target c e)).card + 1 = (N.image c).card := by
  have himage : N.image (merge source target c e) = (N.image c).erase (c (target e)) := by
    ext y
    simp only [Finset.mem_image, Finset.mem_erase, merge]
    constructor
    · rintro ⟨x, hx, rfl⟩
      split
      · exact ⟨hne, source e, hs, rfl⟩
      · exact ⟨‹_›, x, hx, rfl⟩
    · rintro ⟨hy, x, hx, rfl⟩
      exact ⟨x, hx, if_neg hy⟩
  rw [himage, Finset.card_erase_add_one (Finset.mem_image_of_mem c ht)]

omit [DecidableEq ε] in
theorem card_image_le_merge :
    (N.image c).card ≤ (N.image (merge source target c e)).card + 1 := by
  refine (Finset.card_le_card fun y hy => ?_).trans (Finset.card_insert_le (c (target e)) _)
  obtain ⟨x, hx, rfl⟩ := Finset.mem_image.mp hy
  by_cases h : c x = c (target e)
  · exact Finset.mem_insert.mpr (Or.inl h)
  · exact Finset.mem_insert_of_mem (Finset.mem_image.mpr ⟨x, hx, if_neg h⟩)

omit [DecidableEq ε] in
theorem exists_merged (D : List ε) (c : V → V) : ∃ c' : V → V,
    (N.image c).card ≤ (N.image c').card + D.length ∧ (∀ x y, c x = c y → c' x = c' y) ∧
      ∀ e ∈ D, c' (source e) = c' (target e) := by
  induction D generalizing c with
  | nil => exact ⟨c, Nat.le_refl _, fun _ _ h => h, by simp⟩
  | cons e D ih =>
    obtain ⟨c', hcard, hkeep, hjoined⟩ := ih (merge source target c e)
    have hle : (N.image c).card ≤ (N.image (merge source target c e)).card + 1 :=
      card_image_le_merge
    refine ⟨c', by rw [List.length_cons]; omega, fun x y h => hkeep x y (merge_congr h), ?_⟩
    exact List.forall_mem_cons.mpr ⟨hkeep _ _ merge_joins, hjoined⟩

theorem IsSpanningTree.card_le (h : IsSpanningTree source target N E T) (hF : F ⊆ T)
    (hmono : ∀ e ∈ F, c (source e) = c (target e)) : F.card + (N.image c).card ≤ N.card := by
  rcases N.eq_empty_or_nonempty with rfl | hN
  · have hT : T = ∅ := Finset.card_eq_zero.mp h.card
    subst hT
    simp [Finset.subset_empty.mp hF]
  obtain ⟨c', hcard, hkeep, hjoined⟩ := @exists_merged V ε _ source target N
    (T \ F).toList c
  have hall : ∀ e ∈ T, c' (source e) = c' (target e) := by
    intro e he
    by_cases heF : e ∈ F
    · exact hkeep _ _ (hmono e heF)
    · exact hjoined e (Finset.mem_toList.mpr (Finset.mem_sdiff.mpr ⟨he, heF⟩))
  have hone : (N.image c').card ≤ 1 := by
    rw [Finset.card_le_one]
    intro a ha b hb
    obtain ⟨x, hx, rfl⟩ := Finset.mem_image.mp ha
    obtain ⟨y, hy, rfl⟩ := Finset.mem_image.mp hb
    exact eq_of_eqvGen hall (h.connects x hx y hy)
  have hpos := hN.card_pos
  have hsub := Finset.card_le_card hF
  rw [Finset.length_toList, Finset.card_sdiff_of_subset hF, h.card] at hcard
  rw [h.card] at hsub
  omega

theorem IsSpanningTree.exists_source (h : IsSpanningTree source target N E T) {U : Finset V}
    (hU : U ⊆ N) (hne : U.Nonempty) :
    ∃ x ∈ U, ∀ e ∈ T, target e = x → source e ∉ U := by
  by_contra hno
  have hall : ∀ x ∈ U, ∃ e ∈ T, target e = x ∧ source e ∈ U := by
    intro x hx
    by_contra hnone
    exact hno ⟨x, hx, fun e he hex hs => hnone ⟨e, he, hex, hs⟩⟩
  obtain ⟨u, hu⟩ := hne
  let F := T.filter fun e => source e ∈ U ∧ target e ∈ U
  have hmany : U.card ≤ F.card := by
    refine (Finset.card_le_card fun x hx => ?_).trans (Finset.card_image_le (f := target))
    obtain ⟨e, he, rfl, hs⟩ := hall x hx
    exact Finset.mem_image_of_mem target (Finset.mem_filter.mpr ⟨he, hs, hx⟩)
  -- one colour for the set, and one for each of the other nodes
  have hfew : F.card + (N.image fun x => if x ∈ U then u else x).card ≤ N.card :=
    h.card_le (Finset.filter_subset _ T) fun e he => by
      obtain ⟨hs, ht⟩ := (Finset.mem_filter.mp he).2
      rw [if_pos hs, if_pos ht]
  have hcolours : (insert u (N \ U)).card ≤ (N.image fun x => if x ∈ U then u else x).card := by
    apply Finset.card_le_card
    intro y hy
    rcases Finset.mem_insert.mp hy with rfl | hy
    · exact Finset.mem_image.mpr ⟨y, hU hu, if_pos hu⟩
    · obtain ⟨hy, hyU⟩ := Finset.mem_sdiff.mp hy
      exact Finset.mem_image.mpr ⟨y, hy, if_neg hyU⟩
  rw [Finset.card_insert_of_notMem fun hmem => (Finset.mem_sdiff.mp hmem).2 hu,
    Finset.card_sdiff_of_subset hU] at hcolours
  omega

end Colours

/-! ## Selecting edges by weight -/

/-- After the edges of `l`, by decreasing weight: the colours are the components, the
selected edges are as many as they can be and as heavy as those of any tree. -/
structure Selected (weight : ε → ℕ) (N : Finset V) (E : Finset ε) (l : List ε) (c : V → V)
    (T : Finset ε) : Prop where
  joined : ∀ e ∈ l, c (source e) = c (target e)
  subset : ∀ e ∈ T, e ∈ l
  connects : ∀ x ∈ N, ∀ y ∈ N, c x = c y → EqvGen (Joins source target T) x y
  count : T.card + (N.image c).card = N.card
  heavy : ∀ T', IsSpanningTree source target N E T' → ∀ w, (∀ f ∈ l, w ≤ weight f) →
    ∑ f ∈ T' with f ∈ l, weight f + w * T.card ≤ ∑ f ∈ T, weight f + w * {f ∈ T' | f ∈ l}.card

namespace Selected

variable {source target} {weight : ε → ℕ} {N : Finset V} {E T T' : Finset ε} {c : V → V} {e : ε}
  {l : List ε}

theorem start : Selected source target weight N E [] id ∅ where
  joined := by simp
  subset := by simp
  connects x _ y _ h := by
    obtain rfl : x = y := h
    exact EqvGen.refl x
  count := by simp
  heavy := by simp

theorem lower {a b t f w w' : ℕ} (h : a + w * t ≤ b + w * f) (hft : f ≤ t) (hw : w' ≤ w) :
    a + w' * t ≤ b + w' * f := by
  obtain ⟨d, rfl⟩ := Nat.exists_eq_add_of_le hft
  have := Nat.mul_le_mul_right d hw
  linarith [Nat.mul_add w f d, Nat.mul_add w' f d]

theorem filter_cons (weight : ε → ℕ) (T' : Finset ε) (e : ε) (l : List ε) :
    (∑ f ∈ T' with f ∈ e :: l, weight f = ∑ f ∈ T' with f ∈ l, weight f ∧
        {f ∈ T' | f ∈ e :: l}.card = {f ∈ T' | f ∈ l}.card) ∨
      (∑ f ∈ T' with f ∈ e :: l, weight f = ∑ f ∈ T' with f ∈ l, weight f + weight e ∧
        {f ∈ T' | f ∈ e :: l}.card = {f ∈ T' | f ∈ l}.card + 1) := by
  by_cases he : e ∈ T' ∧ e ∉ l
  · right
    have hins : {f ∈ T' | f ∈ e :: l} = insert e {f ∈ T' | f ∈ l} := by
      ext f
      simp only [Finset.mem_filter, List.mem_cons, Finset.mem_insert]
      constructor
      · rintro ⟨hf, rfl | hl⟩
        · exact Or.inl rfl
        · exact Or.inr ⟨hf, hl⟩
      · rintro (rfl | ⟨hf, hl⟩)
        · exact ⟨he.1, Or.inl rfl⟩
        · exact ⟨hf, Or.inr hl⟩
    have hnot : e ∉ {f ∈ T' | f ∈ l} := fun h => he.2 (Finset.mem_filter.mp h).2
    rw [hins, Finset.sum_insert hnot, Finset.card_insert_of_notMem hnot]
    exact ⟨Nat.add_comm _ _, rfl⟩
  · left
    have hsame : {f ∈ T' | f ∈ e :: l} = {f ∈ T' | f ∈ l} := by
      refine Finset.filter_congr fun f hf => ?_
      rw [List.mem_cons, or_iff_right_iff_imp]
      rintro rfl
      exact not_not.mp fun hl => he ⟨hf, hl⟩
    rw [hsame]
    exact ⟨rfl, rfl⟩

theorem skip (h : Selected source target weight N E l c T) (hle : ∀ f ∈ l, weight e ≤ weight f)
    (heq : c (source e) = c (target e)) : Selected source target weight N E (e :: l) c T where
  joined := List.forall_mem_cons.mpr ⟨heq, h.joined⟩
  subset f hf := List.mem_cons_of_mem e (h.subset f hf)
  connects := h.connects
  count := h.count
  heavy T' hT' w hw := by
    have hjoined : ∀ f ∈ e :: l, c (source f) = c (target f) :=
      List.forall_mem_cons.mpr ⟨heq, h.joined⟩
    have hcard := hT'.card_le (c := c) (Finset.filter_subset (· ∈ e :: l) T')
      fun f hf => hjoined f (Finset.mem_filter.mp hf).2
    have hcount := h.count
    refine lower ?_ (by omega) (hw e List.mem_cons_self)
    have hheavy := h.heavy T' hT' (weight e) hle
    rcases filter_cons weight T' e l with ⟨hsum, hone⟩ | ⟨hsum, hone⟩ <;>
      rw [hsum, hone] <;> linarith

theorem take (h : Selected source target weight N E l c T) (hle : ∀ f ∈ l, weight e ≤ weight f)
    (hs : source e ∈ N) (ht : target e ∈ N) (hne : c (source e) ≠ c (target e)) :
    Selected source target weight N E (e :: l) (merge source target c e) (insert e T) where
  joined := List.forall_mem_cons.mpr ⟨merge_joins, fun f hf => merge_congr (h.joined f hf)⟩
  subset f hf := (Finset.mem_insert.mp hf).elim (fun hfe => hfe ▸ List.mem_cons_self)
    fun hfT => List.mem_cons_of_mem e (h.subset f hfT)
  connects x hx y hy hxy := by
    have keep : ∀ a ∈ N, ∀ b ∈ N, c a = c b → EqvGen (Joins source target (insert e T)) a b :=
      fun a ha b hb hab => EqvGen.mono
        (fun _ _ ⟨f, hf, hfa, hfb⟩ => ⟨f, Finset.mem_insert_of_mem hf, hfa, hfb⟩) _ _
        (h.connects a ha b hb hab)
    have hedge : EqvGen (Joins source target (insert e T)) (source e) (target e) :=
      EqvGen.rel _ _ ⟨e, Finset.mem_insert_self e T, rfl, rfl⟩
    unfold merge at hxy
    by_cases hx' : c x = c (target e) <;> by_cases hy' : c y = c (target e)
    · exact keep x hx y hy (hx'.trans hy'.symm)
    · rw [if_pos hx', if_neg hy'] at hxy
      exact ((keep x hx _ ht hx').trans _ _ _ (hedge.symm _ _)).trans _ _ _ (keep _ hs y hy hxy)
    · rw [if_neg hx', if_pos hy'] at hxy
      exact ((keep x hx _ hs hxy).trans _ _ _ hedge).trans _ _ _ (keep _ ht y hy hy'.symm)
    · rw [if_neg hx', if_neg hy'] at hxy
      exact keep x hx y hy hxy
  count := by
    have hnot : e ∉ T := fun he => hne (h.joined e (h.subset e he))
    rw [Finset.card_insert_of_notMem hnot, ← h.count, ← card_image_merge hs ht hne]
    omega
  heavy T' hT' w hw := by
    have hnot : e ∉ T := fun he => hne (h.joined e (h.subset e he))
    have hjoined : ∀ f ∈ e :: l, merge source target c e (source f) =
        merge source target c e (target f) :=
      List.forall_mem_cons.mpr ⟨merge_joins, fun f hf => merge_congr (h.joined f hf)⟩
    have hcard := hT'.card_le (c := merge source target c e)
      (Finset.filter_subset (· ∈ e :: l) T') fun f hf => hjoined f (Finset.mem_filter.mp hf).2
    have hcount := h.count
    have hmerge := card_image_merge hs ht hne
    rw [Finset.sum_insert hnot, Finset.card_insert_of_notMem hnot]
    refine lower ?_ (by omega) (hw e List.mem_cons_self)
    have hheavy := h.heavy T' hT' (weight e) hle
    rcases filter_cons weight T' e l with ⟨hsum, hone⟩ | ⟨hsum, hone⟩ <;>
      rw [hsum, hone] <;> linarith

/-- When all edges are processed and they connect the nodes, the selection is a tree of the
greatest weight. -/
theorem tree (h : Selected source target weight N E l c T) (hl : ∀ e, e ∈ l ↔ e ∈ E)
    (hE : ∀ x ∈ N, ∀ y ∈ N, EqvGen (Joins source target E) x y) :
    IsSpanningTree source target N E T ∧
      ∀ T', IsSpanningTree source target N E T' → ∑ f ∈ T', weight f ≤ ∑ f ∈ T, weight f := by
  have hone : ∀ x ∈ N, ∀ y ∈ N, c x = c y := fun x hx y hy =>
    eq_of_eqvGen (fun e he => h.joined e ((hl e).mpr he)) (hE x hx y hy)
  refine ⟨⟨fun e he => (hl e).mp (h.subset e he), fun x hx y hy =>
    h.connects x hx y hy (hone x hx y hy), ?_⟩, fun T' hT' => ?_⟩
  · have hcount := h.count
    rcases N.eq_empty_or_nonempty with rfl | ⟨x, hx⟩
    · simpa using hcount
    · have himage : N.image c = {c x} := by
        rw [Finset.eq_singleton_iff_unique_mem]
        refine ⟨Finset.mem_image_of_mem c hx, fun a ha => ?_⟩
        obtain ⟨y, hy, rfl⟩ := Finset.mem_image.mp ha
        exact hone y hy x hx
      rw [himage, Finset.card_singleton] at hcount
      omega
  · have hheavy := h.heavy T' hT' 0 fun _ _ => Nat.zero_le _
    rw [Finset.filter_true_of_mem fun e he => (hl e).mpr (hT'.subset he)] at hheavy
    omega

end Selected

end SmlnjLlvm.SpanningTrees
