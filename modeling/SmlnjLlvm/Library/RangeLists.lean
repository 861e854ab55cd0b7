import Mathlib.Data.List.TakeWhile
import Mathlib.Order.Interval.Set.Defs
import Mathlib.Order.Lattice

/-!
# Lists of half-open ranges

Sorted lists of disjoint ranges, and of ranges that do not even touch. The latter
are determined by the set that they cover.
-/

namespace SmlnjLlvm.RangeLists

variable {α T : Type} [LinearOrder α] (lo hi : T → α)

def covered (l : List T) : Set α := {x | ∃ t ∈ l, x ∈ Set.Ico (lo t) (hi t)}

/-- Non-empty ranges in ascending order, without overlaps. -/
structure Ascending (l : List T) : Prop where
  nonempty : ∀ t ∈ l, lo t < hi t
  disjoint : l.Pairwise fun t s => hi t ≤ lo s

/-- Non-empty ranges in ascending order that do not touch. -/
structure Normal (l : List T) : Prop where
  nonempty : ∀ t ∈ l, lo t < hi t
  apart : l.Pairwise fun t s => hi t < lo s

variable {lo hi}

theorem Normal.ascending {l : List T} (h : Normal lo hi l) : Ascending lo hi l :=
  ⟨h.nonempty, h.apart.imp le_of_lt⟩

theorem Ascending.of_cons {t : T} {l : List T} (h : Ascending lo hi (t :: l)) : Ascending lo hi l :=
  ⟨fun s hs => h.nonempty s (List.mem_cons_of_mem t hs), (List.pairwise_cons.mp h.disjoint).2⟩

theorem Normal.of_cons {t : T} {l : List T} (h : Normal lo hi (t :: l)) : Normal lo hi l :=
  ⟨fun s hs => h.nonempty s (List.mem_cons_of_mem t hs), (List.pairwise_cons.mp h.apart).2⟩

theorem mem_covered_cons {t : T} {l : List T} {x : α} :
    x ∈ covered lo hi (t :: l) ↔ x ∈ Set.Ico (lo t) (hi t) ∨ x ∈ covered lo hi l := by
  simp [covered]

theorem mem_covered_append {l l' : List T} {x : α} :
    x ∈ covered lo hi (l ++ l') ↔ x ∈ covered lo hi l ∨ x ∈ covered lo hi l' := by
  constructor
  · rintro ⟨t, ht, hx⟩
    rcases List.mem_append.mp ht with ht | ht
    · exact Or.inl ⟨t, ht, hx⟩
    · exact Or.inr ⟨t, ht, hx⟩
  · rintro (⟨t, ht, hx⟩ | ⟨t, ht, hx⟩)
    · exact ⟨t, List.mem_append_left _ ht, hx⟩
    · exact ⟨t, List.mem_append_right _ ht, hx⟩

theorem Ascending.lo_le {t : T} {l : List T} (h : Ascending lo hi (t :: l)) {x : α}
    (hx : x ∈ covered lo hi (t :: l)) : lo t ≤ x := by
  obtain ⟨s, hs, hle, -⟩ := hx
  rcases List.mem_cons.mp hs with rfl | hs
  · exact hle
  · have hnext := (List.pairwise_cons.mp h.disjoint).1 s hs
    exact (h.nonempty t List.mem_cons_self).le.trans (hnext.trans hle)

theorem Ascending.hi_le_getLast {l : List T} (h : Ascending lo hi l) {t : T}
    (hlast : l.getLast? = some t) {s : T} (hs : s ∈ l) : hi s ≤ hi t := by
  obtain ⟨init, rfl⟩ := List.getLast?_eq_some_iff.mp hlast
  rcases List.mem_append.mp hs with hs | hs
  · have hle := (List.pairwise_append.mp h.disjoint).2.2 s hs t List.mem_cons_self
    exact hle.trans (h.nonempty t (List.mem_append_right init List.mem_cons_self)).le
  · rw [List.mem_singleton.mp hs]

theorem mem_covered_dropWhile {l : List T} {y x : α} (hle : y ≤ x) :
    x ∈ covered lo hi (l.dropWhile fun t => decide (hi t ≤ y)) ↔ x ∈ covered lo hi l := by
  constructor
  · rintro ⟨t, ht, hx⟩
    exact ⟨t, (List.dropWhile_sublist _).subset ht, hx⟩
  · intro hx
    rw [← List.takeWhile_append_dropWhile (p := fun t => decide (hi t ≤ y)) (l := l),
      mem_covered_append] at hx
    rcases hx with ⟨t, ht, hx⟩ | hx
    · have hearly := List.mem_takeWhile_imp ht
      have hend : hi t ≤ y := of_decide_eq_true hearly
      exact absurd hx.2 (not_lt.mpr (hend.trans hle))
    · exact hx

theorem Ascending.sublist {l m : List T} (h : Ascending lo hi l) (hm : m.Sublist l) :
    Ascending lo hi m :=
  ⟨fun t ht => h.nonempty t (hm.subset ht), h.disjoint.sublist hm⟩

theorem Normal.sublist {l m : List T} (h : Normal lo hi l) (hm : m.Sublist l) : Normal lo hi m :=
  ⟨fun t ht => h.nonempty t (hm.subset ht), h.apart.sublist hm⟩

theorem Normal.insert {before rest : List T} {m : T} (hbefore : Normal lo hi before)
    (hrest : Normal lo hi rest) (hm : lo m < hi m) (hleft : ∀ t ∈ before, hi t < lo m)
    (hright : ∀ t ∈ rest, hi m < lo t) : Normal lo hi (before ++ m :: rest) := by
  refine ⟨fun t ht => ?_, ?_⟩
  · rcases List.mem_append.mp ht with ht | ht
    · exact hbefore.nonempty t ht
    · rcases List.mem_cons.mp ht with rfl | ht
      · exact hm
      · exact hrest.nonempty t ht
  · rw [List.pairwise_append, List.pairwise_cons]
    refine ⟨hbefore.apart, ⟨hright, hrest.apart⟩, fun t ht s hs => ?_⟩
    rcases List.mem_cons.mp hs with rfl | hs
    · exact hleft t ht
    · exact (hleft t ht).trans (hm.trans (hright s hs))

theorem Ascending.insert {before rest : List T} {m : T} (hbefore : Ascending lo hi before)
    (hrest : Ascending lo hi rest) (hm : lo m < hi m) (hleft : ∀ t ∈ before, hi t ≤ lo m)
    (hright : ∀ t ∈ rest, hi m ≤ lo t) : Ascending lo hi (before ++ m :: rest) := by
  refine ⟨fun t ht => ?_, ?_⟩
  · rcases List.mem_append.mp ht with ht | ht
    · exact hbefore.nonempty t ht
    · rcases List.mem_cons.mp ht with rfl | ht
      · exact hm
      · exact hrest.nonempty t ht
  · rw [List.pairwise_append, List.pairwise_cons]
    refine ⟨hbefore.disjoint, ⟨hright, hrest.disjoint⟩, fun t ht s hs => ?_⟩
    rcases List.mem_cons.mp hs with rfl | hs
    · exact hleft t ht
    · exact (hleft t ht).trans (hm.le.trans (hright s hs))

theorem of_mem_dropWhile {p : T → Bool} {l : List T} (h : l.Pairwise fun t s => p s = true → p t = true)
    {t : T} (ht : t ∈ l.dropWhile p) : p t = false := by
  induction l with
  | nil => cases ht
  | cons s l ih =>
    obtain ⟨hall, hrest⟩ := List.pairwise_cons.mp h
    rw [List.dropWhile_cons] at ht
    split at ht
    · exact ih hrest ht
    · rename_i hfails
      rcases List.mem_cons.mp ht with rfl | ht
      · exact Bool.eq_false_iff.mpr hfails
      · exact Bool.eq_false_iff.mpr fun hpass => hfails (hall t ht hpass)

theorem Ascending.lo_lt {l : List T} (h : Ascending lo hi l) : l.Pairwise fun t s => lo t < lo s :=
  h.disjoint.imp_of_mem fun ht _ hle => (h.nonempty _ ht).trans_le hle

theorem Ascending.getLast?_takeWhile {l : List T} (h : Ascending lo hi l) {x : α} {t : T}
    (ht : t ∈ l) (hx : x ∈ Set.Ico (lo t) (hi t)) :
    (l.takeWhile fun s => decide (lo s ≤ x)).getLast? = some t := by
  induction l with
  | nil => cases ht
  | cons s l ih =>
    have hall := (List.pairwise_cons.mp h.disjoint).1
    rcases List.mem_cons.mp ht with rfl | ht
    · rw [List.takeWhile_cons, if_pos (decide_eq_true hx.1)]
      have hnil : l.takeWhile (fun s => decide (lo s ≤ x)) = [] := by
        cases l with
        | nil => rfl
        | cons r l =>
          have hlate := hx.2.trans_le (hall r List.mem_cons_self)
          rw [List.takeWhile_cons, if_neg]
          exact fun hle => not_le.mpr hlate (of_decide_eq_true hle)
      rw [hnil, List.getLast?_singleton]
    · have hearly : lo s ≤ x :=
        (h.nonempty s List.mem_cons_self).le.trans ((hall t ht).trans hx.1)
      have hlast := ih h.of_cons ht
      rw [List.takeWhile_cons, if_pos (decide_eq_true hearly), List.getLast?_cons, hlast]
      rfl

theorem Normal.hi_not_mem {t : T} {l : List T} (h : Normal lo hi (t :: l)) :
    hi t ∉ covered lo hi (t :: l) := by
  rintro ⟨s, hs, hle, hlt⟩
  rcases List.mem_cons.mp hs with rfl | hs
  · exact lt_irrefl _ hlt
  · exact not_le.mpr ((List.pairwise_cons.mp h.apart).1 s hs) hle

theorem Normal.lo_mem {t : T} {l : List T} (h : Normal lo hi (t :: l)) :
    lo t ∈ covered lo hi (t :: l) :=
  ⟨t, List.mem_cons_self, le_refl _, h.nonempty t List.mem_cons_self⟩

theorem Normal.mem_tail {t : T} {l : List T} (h : Normal lo hi (t :: l)) {x : α} :
    x ∈ covered lo hi l ↔ x ∈ covered lo hi (t :: l) ∧ hi t ≤ x := by
  constructor
  · rintro ⟨s, hs, hle, hlt⟩
    have hnext := (List.pairwise_cons.mp h.apart).1 s hs
    exact ⟨⟨s, List.mem_cons_of_mem t hs, hle, hlt⟩, hnext.le.trans hle⟩
  · rintro ⟨hx, hle⟩
    rcases mem_covered_cons.mp hx with hx | hx
    · exact absurd hx.2 (not_lt.mpr hle)
    · exact hx

theorem Normal.hi_le {t s : T} {l m : List T} (h : Normal lo hi (t :: l)) (h' : Normal lo hi (s :: m))
    (hsame : covered lo hi (t :: l) = covered lo hi (s :: m)) : hi s ≤ hi t := by
  by_contra hlt
  apply h.hi_not_mem
  rw [hsame]
  refine ⟨s, List.mem_cons_self, ?_, not_le.mp hlt⟩
  have hlo : lo s ≤ lo t := h'.ascending.lo_le (hsame ▸ h.lo_mem)
  exact hlo.trans (h.nonempty t List.mem_cons_self).le

theorem Normal.ext (hinj : ∀ t s : T, lo t = lo s → hi t = hi s → t = s) {l m : List T}
    (h : Normal lo hi l) (h' : Normal lo hi m) (hsame : covered lo hi l = covered lo hi m) :
    l = m := by
  induction l generalizing m with
  | nil =>
    cases m with
    | nil => rfl
    | cons s m =>
      have hmem := hsame ▸ h'.lo_mem
      obtain ⟨t, ht, -⟩ := hmem
      cases ht
  | cons t l ih =>
    cases m with
    | nil =>
      have hmem := hsame ▸ h.lo_mem
      obtain ⟨s, hs, -⟩ := hmem
      cases hs
    | cons s m =>
      have hlo : lo t = lo s :=
        le_antisymm (h.ascending.lo_le (hsame ▸ h'.lo_mem)) (h'.ascending.lo_le (hsame ▸ h.lo_mem))
      have hhi : hi t = hi s := le_antisymm (h'.hi_le h hsame.symm) (h.hi_le h' hsame)
      have htail : covered lo hi l = covered lo hi m := by
        ext x
        rw [h.mem_tail, h'.mem_tail, hsame, hhi]
      rw [hinj t s hlo hhi, ih h.of_cons h'.of_cons htail]

end SmlnjLlvm.RangeLists
