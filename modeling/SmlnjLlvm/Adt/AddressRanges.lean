import Mathlib.Algebra.Order.Ring.Nat
import Mathlib.Data.List.Perm.Basic
import SmlnjLlvm.Library.Loop
import SmlnjLlvm.Library.RangeLists

/-!
# Collections of address ranges

A collection is a sorted vector. An iterator splits it into the elements before
it and those from it on; its position is the number of elements before it.
-/

namespace SmlnjLlvm

open RangeLists

/-- The addresses from a start to an end; the constructor asserts their order. -/
structure AddressRange where
  Start : Nat
  End : Nat
  le : Start ≤ End
  lt : End < 2 ^ 64

namespace AddressRange

@[ext] theorem ext {R S : AddressRange} (hstart : R.Start = S.Start) (hend : R.End = S.End) :
    R = S := by
  cases R
  cases S
  simp_all

instance : DecidableEq AddressRange := fun R S =>
  decidable_of_iff (R.Start = S.Start ∧ R.End = S.End)
    ⟨fun h => ext h.1 h.2, fun h => ⟨congrArg Start h, congrArg End h⟩⟩

def size (R : AddressRange) : Nat := R.End - R.Start

def empty (R : AddressRange) : Bool := R.size = 0

def containsAddr (R : AddressRange) (Addr : Nat) : Bool := R.Start ≤ Addr && Addr < R.End

def contains (R S : AddressRange) : Bool := R.Start ≤ S.Start && S.End ≤ R.End

/-- `operator<` -/
def less (R S : AddressRange) : Bool := R.Start < S.Start || R.Start = S.Start && R.End < S.End

/-- The range up to the end of another one, if that is larger. -/
def extend (R S : AddressRange) : AddressRange :=
  ⟨R.Start, max R.End S.End, le_max_of_le_left R.le, max_lt R.lt S.lt⟩

abbrev addresses (R : AddressRange) : Set Nat := Set.Ico R.Start R.End

theorem containsAddr_iff {R : AddressRange} {Addr : Nat} :
    R.containsAddr Addr = true ↔ Addr ∈ R.addresses := by
  rw [containsAddr, Bool.and_eq_true, decide_eq_true_eq, decide_eq_true_eq]
  exact Iff.rfl

end AddressRange

section Base

variable {T : Type} (range : T → AddressRange)

/-- `find`; the position past the last element stands for no result. -/
def find (Ranges : List T) (Start End : Nat) : Nat :=
  if Start ≥ End then Ranges.length
  else
    let before := Ranges.takeWhile fun R => (range R).Start ≤ Start
    match before.getLast? with
    | none => Ranges.length
    | some R => if End > (range R).End then Ranges.length else before.length - 1

/-- `contains` for an address; the next address wraps around. -/
def containsAddr (Ranges : List T) (Addr : Nat) : Bool :=
  find range Ranges Addr ((Addr + 1) % 2 ^ 64) ≠ Ranges.length

def containsRange (Ranges : List T) (Range : AddressRange) : Bool :=
  find range Ranges Range.Start Range.End ≠ Ranges.length

def getRangeThatContains (Ranges : List T) (Addr : Nat) : Option T :=
  Ranges[find range Ranges Addr ((Addr + 1) % 2 ^ 64)]?

end Base

namespace AddressRanges

/-- The range, merged with the ranges from the iterator on that it intersects or touches. -/
def mergeRight (Range : AddressRange) (run : List AddressRange) : AddressRange :=
  match run.getLast? with
  | none => Range
  | some last => Range.extend last

/-- `insert`; the result is the position of the returned iterator, and the collection. -/
def insert (Ranges : List AddressRange) (Range : AddressRange) : Nat × List AddressRange :=
  if Range.empty then (Ranges.length, Ranges)
  else
    -- `upper_bound` is the first element that is greater than the range.
    let before := Ranges.takeWhile fun R => !Range.less R
    let after := Ranges.dropWhile fun R => !Range.less R
    let run := after.takeWhile fun R => R.Start ≤ Range.End
    let rest := after.dropWhile fun R => R.Start ≤ Range.End
    let merged := mergeRight Range run
    match before.getLast? with
    | none => (before.length, before ++ merged :: rest)
    | some prev =>
      if merged.Start ≤ prev.End then
        (before.length - 1, before.dropLast ++ prev.extend merged :: rest)
      else (before.length, before ++ merged :: rest)

def insertAll (inserts : List AddressRange) : List AddressRange :=
  inserts.foldl (fun Ranges Range => (insert Ranges Range).2) []

end AddressRanges

namespace AddressRangesMap

structure AddressRangeValuePair where
  Range : AddressRange
  Value : Int

/-- The vector on both sides of the iterator, and what is left of the range. -/
structure Inserting where
  before : List AddressRangeValuePair
  after : List AddressRangeValuePair
  Range : AddressRange

open Loop

/-- A turn of the loop over the collection. -/
def insertTurn (Value : Int) (s : Inserting) : Turn Inserting (List AddressRangeValuePair) :=
  if s.Range.empty then .exit (s.before ++ s.after)
  else
    match s.after with
    | [] => .exit (s.before ++ [⟨s.Range, Value⟩])
    | It :: rest =>
      if hend : s.Range.End ≤ It.Range.Start then
        .exit (s.before ++ ⟨s.Range, Value⟩ :: It :: rest)
      else if hstart : s.Range.Start < It.Range.Start then
        .next {
          before := s.before ++
            [⟨⟨s.Range.Start, It.Range.Start, hstart.le, It.Range.le.trans_lt It.Range.lt⟩, Value⟩]
          after := It :: rest
          Range := ⟨It.Range.Start, s.Range.End, (not_le.mp hend).le, s.Range.lt⟩ }
      else if hover : s.Range.End ≤ It.Range.End then .exit (s.before ++ It :: rest)
      else
        .next {
          before := s.before ++ [It]
          after := rest
          Range :=
            if s.Range.Start < It.Range.End then
              ⟨It.Range.End, s.Range.End, (not_le.mp hover).le, s.Range.lt⟩
            else s.Range }

/-- `insert` with a bound on the turns of its loop. -/
def insert (turns : Nat) (Ranges : List AddressRangeValuePair) (Range : AddressRange) (Value : Int) :
    Option (List AddressRangeValuePair) :=
  if Range.empty then some Ranges
  else
    -- The search ends behind the last element that starts early, and steps back to it.
    let early := Ranges.takeWhile fun R => R.Range.Start ≤ Range.Start
    let late := Ranges.dropWhile fun R => R.Range.Start ≤ Range.Start
    loop (fun s => some (insertTurn Value s)) turns
      ⟨early.dropLast, early.getLast?.toList ++ late, Range⟩

end AddressRangesMap

/-! ## Searching -/

theorem AddressRange.empty_iff {R : AddressRange} : R.empty = true ↔ R.End ≤ R.Start := by
  rw [AddressRange.empty, AddressRange.size, decide_eq_true_eq, Nat.sub_eq_zero_iff_le]

section Base

variable {T : Type} {range : T → AddressRange}

theorem find_le (Ranges : List T) (Start End : Nat) :
    find range Ranges Start End ≤ Ranges.length := by
  unfold find
  have hlength := (List.takeWhile_sublist
    (fun R => decide ((range R).Start ≤ Start)) (l := Ranges)).length_le
  dsimp only
  split
  · exact Nat.le_refl _
  · split
    · exact Nat.le_refl _
    · split
      · exact Nat.le_refl _
      · exact Nat.le_trans (Nat.sub_le _ _) hlength

theorem getElem?_takeWhile_getLast? {p : T → Bool} {l : List T} {t : T}
    (h : (l.takeWhile p).getLast? = some t) : l[(l.takeWhile p).length - 1]? = some t := by
  obtain ⟨ys, hys⟩ := List.getLast?_eq_some_iff.mp h
  have hlength : (l.takeWhile p).length = ys.length + 1 := by rw [hys, List.length_append]; rfl
  have hlt : (l.takeWhile p).length - 1 < (l.takeWhile p).length := by omega
  have hread := List.getLast?_eq_getElem? (l := l.takeWhile p)
  rw [h, ← List.getElem?_append_left hlt, List.takeWhile_append_dropWhile] at hread
  exact hread.symm

theorem getElem?_find {l : List T}
    (h : Ascending (fun t => (range t).Start) (fun t => (range t).End) l) {Start End : Nat} {t : T} :
    l[find range l Start End]? = some t ↔
      Start < End ∧ t ∈ l ∧ (range t).Start ≤ Start ∧ End ≤ (range t).End := by
  have hend : l[l.length]? = none := List.getElem?_eq_none (Nat.le_refl _)
  unfold find
  by_cases hempty : Start ≥ End
  · rw [if_pos hempty, hend]
    simp only [reduceCtorEq, false_iff]
    omega
  · rw [if_neg hempty]
    dsimp only
    constructor
    · intro hfound
      split at hfound
      · rw [hend] at hfound
        cases hfound
      · rename_i R hlast
        split at hfound
        · rw [hend] at hfound
          cases hfound
        · rename_i hfits
          rw [getElem?_takeWhile_getLast? hlast] at hfound
          cases hfound
          have hmem := List.mem_of_getLast? hlast
          have hstart := List.mem_takeWhile_imp hmem
          refine ⟨Nat.not_le.mp hempty, (List.takeWhile_sublist _).subset hmem, ?_, ?_⟩
          · exact of_decide_eq_true hstart
          · exact Nat.not_lt.mp hfits
    · rintro ⟨hlt, ht, hstart, hfits⟩
      have hlast := h.getLast?_takeWhile ht ⟨hstart, Nat.lt_of_lt_of_le hlt hfits⟩
      simp only [hlast]
      rw [if_neg (Nat.not_lt.mpr hfits)]
      exact getElem?_takeWhile_getLast? hlast

theorem find_ne_length_iff {l : List T} {Start End : Nat} :
    find range l Start End ≠ l.length ↔ ∃ t, l[find range l Start End]? = some t := by
  constructor
  · intro hne
    have hlt := Nat.lt_of_le_of_ne (find_le l Start End) hne
    exact ⟨_, List.getElem?_eq_getElem hlt⟩
  · rintro ⟨t, ht⟩
    exact Nat.ne_of_lt (List.getElem?_eq_some_iff.mp ht).1

theorem getRangeThatContains_eq_some {l : List T}
    (h : Ascending (fun t => (range t).Start) (fun t => (range t).End) l) {Addr : Nat}
    (haddr : Addr < 2 ^ 64) {t : T} :
    getRangeThatContains range l Addr = some t ↔ t ∈ l ∧ Addr ∈ (range t).addresses := by
  have hlt := (range t).lt
  unfold getRangeThatContains
  rw [getElem?_find h, Set.mem_Ico]
  by_cases htop : Addr + 1 < 2 ^ 64
  · rw [Nat.mod_eq_of_lt htop, and_iff_right (Nat.lt_succ_self Addr)]
    exact Iff.rfl
  · have hwrap : (Addr + 1) % 2 ^ 64 = 0 := by
      rw [show Addr + 1 = 2 ^ 64 by omega, Nat.mod_self]
    rw [hwrap]
    constructor
    · rintro ⟨hlt, -⟩
      exact absurd hlt (Nat.not_lt_zero Addr)
    · rintro ⟨-, -, hlow⟩
      omega

theorem containsAddr_iff {l : List T}
    (h : Ascending (fun t => (range t).Start) (fun t => (range t).End) l) {Addr : Nat}
    (haddr : Addr < 2 ^ 64) :
    containsAddr range l Addr = true ↔ ∃ t ∈ l, Addr ∈ (range t).addresses := by
  unfold containsAddr
  rw [decide_eq_true_eq, find_ne_length_iff]
  exact exists_congr fun t => getRangeThatContains_eq_some h haddr

theorem containsRange_iff {l : List T}
    (h : Ascending (fun t => (range t).Start) (fun t => (range t).End) l) {Range : AddressRange} :
    containsRange range l Range = true ↔
      Range.empty = false ∧ ∃ t ∈ l, (range t).contains Range = true := by
  have hempty : Range.empty = false ↔ Range.Start < Range.End := by
    rw [← Bool.not_eq_true, AddressRange.empty_iff, Nat.not_le]
  unfold containsRange
  rw [decide_eq_true_eq, find_ne_length_iff, hempty]
  simp only [getElem?_find h, AddressRange.contains, Bool.and_eq_true, decide_eq_true_eq]
  constructor
  · rintro ⟨t, hlt, ht, hcontains⟩
    exact ⟨hlt, t, ht, hcontains⟩
  · rintro ⟨hlt, t, ht, hcontains⟩
    exact ⟨t, hlt, ht, hcontains⟩

end Base

/-! ## Merging -/

namespace AddressRanges

/-- The ranges are not empty, ascend and do not touch. -/
abbrev Normalised (Ranges : List AddressRange) : Prop :=
  Normal AddressRange.Start AddressRange.End Ranges

abbrev addresses (Ranges : List AddressRange) : Set Nat :=
  covered AddressRange.Start AddressRange.End Ranges

theorem less_iff {R S : AddressRange} :
    R.less S = true ↔ R.Start < S.Start ∨ R.Start = S.Start ∧ R.End < S.End := by
  simp [AddressRange.less]

theorem mergeRight_spec {Range : AddressRange} {run : List AddressRange} (h : Normalised run)
    (hstart : ∀ t ∈ run, Range.Start ≤ t.Start ∧ t.Start ≤ Range.End) :
    (mergeRight Range run).Start = Range.Start ∧ Range.End ≤ (mergeRight Range run).End ∧
      (∀ b, Range.End < b → (∀ t ∈ run, t.End < b) → (mergeRight Range run).End < b) ∧
      ∀ x, x ∈ (mergeRight Range run).addresses ↔ x ∈ Range.addresses ∨ x ∈ addresses run := by
  unfold mergeRight
  cases hlast : run.getLast? with
  | none =>
    obtain rfl := List.getLast?_eq_none_iff.mp hlast
    exact ⟨rfl, Nat.le_refl _, fun b hb _ => hb, fun x => by simp [covered]⟩
  | some last =>
    have hmem := List.mem_of_getLast? hlast
    have hends : ∀ t ∈ run, t.End ≤ last.End := by
      obtain ⟨ys, rfl⟩ := List.getLast?_eq_some_iff.mp hlast
      intro t ht
      rcases List.mem_append.mp ht with ht | ht
      · have hbefore := (List.pairwise_append.mp h.apart).2.2 t ht last (List.mem_singleton_self _)
        have hle := last.le
        omega
      · rw [List.mem_singleton.mp ht]
    obtain ⟨hlo, hhi⟩ := hstart last hmem
    refine ⟨rfl, Nat.le_max_left _ _, fun b hb hrun => Nat.max_lt.mpr ⟨hb, hrun last hmem⟩, ?_⟩
    intro x
    show Range.Start ≤ x ∧ x < max Range.End last.End ↔
      (Range.Start ≤ x ∧ x < Range.End) ∨ x ∈ addresses run
    constructor
    · rintro ⟨hle, hlt⟩
      by_cases hin : x < Range.End
      · exact Or.inl ⟨hle, hin⟩
      · exact Or.inr ⟨last, hmem, by omega, by omega⟩
    · rintro (⟨hle, hlt⟩ | ⟨t, ht, hle, hlt⟩)
      · exact ⟨hle, by omega⟩
      · have hend := hends t ht
        have hfirst := (hstart t ht).1
        exact ⟨by omega, by omega⟩

/-- What an insertion is to do: the position is that of a range that holds the inserted one. -/
structure Inserted (Ranges : List AddressRange) (Range : AddressRange)
    (result : Nat × List AddressRange) : Prop where
  normalised : Normalised result.2
  addresses : ∀ x, x ∈ AddressRanges.addresses result.2 ↔
    x ∈ AddressRanges.addresses Ranges ∨ x ∈ Range.addresses
  designated : ∃ R, result.2[result.1]? = some R ∧ R.contains Range = true

theorem mergeLeft_spec {before run rest : List AddressRange} {Range merged : AddressRange}
    (h : Normalised (before ++ (run ++ rest))) (hbefore : ∀ t ∈ before, t.Start ≤ Range.Start)
    (hnonempty : Range.Start < Range.End) (hstart : merged.Start = Range.Start)
    (hend : Range.End ≤ merged.End) (hright : ∀ t ∈ rest, merged.End < t.Start)
    (haddresses : ∀ x, x ∈ merged.addresses ↔ x ∈ Range.addresses ∨ x ∈ addresses run) :
    Inserted (before ++ (run ++ rest)) Range
      (match before.getLast? with
      | none => (before.length, before ++ merged :: rest)
      | some prev =>
        if merged.Start ≤ prev.End then
          (before.length - 1, before.dropLast ++ prev.extend merged :: rest)
        else (before.length, before ++ merged :: rest)) := by
  have hnormal : Normalised before := h.sublist (List.sublist_append_left _ _)
  have hrest : Normalised rest :=
    h.sublist ((List.sublist_append_right _ _).trans (List.sublist_append_right _ _))
  have hmerged : merged.Start < merged.End := by omega
  -- Without a merge the range goes between the ranges before and the rest.
  have hbetween (hleft : ∀ t ∈ before, t.End < merged.Start) :
      Inserted (before ++ (run ++ rest)) Range (before.length, before ++ merged :: rest) := by
    refine ⟨hnormal.insert hrest hmerged hleft hright, fun x => ?_, merged, ?_, ?_⟩
    · rw [mem_covered_append, mem_covered_append, mem_covered_append, mem_covered_cons]
      have hx := haddresses x
      grind
    · rw [List.getElem?_append_right (Nat.le_refl _), Nat.sub_self]
      rfl
    · simp [AddressRange.contains, hstart, hend]
  cases hlast : before.getLast? with
  | none =>
    obtain rfl := List.getLast?_eq_none_iff.mp hlast
    exact hbetween fun t ht => by cases ht
  | some prev =>
    obtain ⟨ys, rfl⟩ := List.getLast?_eq_some_iff.mp hlast
    have hprev : prev.Start ≤ Range.Start := hbefore prev (by simp)
    have hys : ∀ t ∈ ys, t.End < prev.Start := fun t ht =>
      (List.pairwise_append.mp hnormal.apart).2.2 t ht prev (List.mem_singleton_self _)
    have hnonempty' := hnormal.nonempty prev (by simp)
    have hprevrest : ∀ t ∈ rest, prev.End < t.Start := fun t ht =>
      (List.pairwise_append.mp h.apart).2.2 prev (by simp) t (List.mem_append_right _ ht)
    dsimp only
    by_cases htouch : merged.Start ≤ prev.End
    · rw [if_pos htouch, List.dropLast_concat]
      refine ⟨Normal.insert (hnormal.sublist (List.sublist_append_left _ _)) hrest ?_ hys ?_,
        fun x => ?_, prev.extend merged, ?_, ?_⟩
      · exact lt_max_of_lt_left hnonempty'
      · exact fun t ht => max_lt (hprevrest t ht) (hright t ht)
      · have hx := haddresses x
        have hwhole : x ∈ (prev.extend merged).addresses ↔ x ∈ prev.addresses ∨ x ∈ merged.addresses := by
          show prev.Start ≤ x ∧ x < max prev.End merged.End ↔
            (prev.Start ≤ x ∧ x < prev.End) ∨ (merged.Start ≤ x ∧ x < merged.End)
          omega
        rw [mem_covered_append, mem_covered_append, mem_covered_append, mem_covered_append,
          mem_covered_cons, mem_covered_cons]
        have hnil : x ∉ covered AddressRange.Start AddressRange.End [] := by simp [covered]
        grind
      · rw [List.length_append, List.length_singleton, Nat.add_sub_cancel,
          List.getElem?_append_right (Nat.le_refl _), Nat.sub_self]
        rfl
      · have hmax : Range.End ≤ max prev.End merged.End := le_max_of_le_right hend
        simp [AddressRange.contains, AddressRange.extend, hprev, hmax]
    · rw [if_neg htouch]
      apply hbetween
      intro t ht
      rcases List.mem_append.mp ht with ht | ht
      · have hlt := hys t ht
        omega
      · rw [List.mem_singleton.mp ht]
        omega

theorem insert_spec {Ranges : List AddressRange} (h : Normalised Ranges) {Range : AddressRange}
    (hnonempty : Range.empty = false) : Inserted Ranges Range (insert Ranges Range) := by
  have hlt : Range.Start < Range.End := by
    rw [← Nat.not_le, ← AddressRange.empty_iff, hnonempty]
    exact Bool.false_ne_true
  unfold insert
  rw [if_neg (by rw [hnonempty]; exact Bool.false_ne_true)]
  dsimp only
  have hstarts := h.ascending.lo_lt
  obtain ⟨before, hb⟩ : ∃ l, l = Ranges.takeWhile fun R => !Range.less R := ⟨_, rfl⟩
  obtain ⟨after, ha⟩ : ∃ l, l = Ranges.dropWhile fun R => !Range.less R := ⟨_, rfl⟩
  have hsplit : before ++ after = Ranges := by rw [hb, ha, List.takeWhile_append_dropWhile]
  have hbefore : ∀ t ∈ before, t.Start ≤ Range.Start := by
    intro t ht
    rw [hb] at ht
    have htest := List.mem_takeWhile_imp ht
    rw [Bool.not_eq_true', ← Bool.not_eq_true, less_iff] at htest
    omega
  have hafter : ∀ t ∈ after, Range.Start ≤ t.Start := by
    intro t ht
    rw [ha] at ht
    have htest := of_mem_dropWhile (hstarts.imp fun {R S} hRS hless => by
      rw [Bool.not_eq_true', ← Bool.not_eq_true, less_iff] at hless ⊢
      omega) ht
    rw [Bool.not_eq_false', less_iff] at htest
    omega
  rw [← hb, ← ha]
  obtain ⟨run, hr⟩ : ∃ l, l = after.takeWhile fun R => decide (R.Start ≤ Range.End) := ⟨_, rfl⟩
  obtain ⟨rest, ht⟩ : ∃ l, l = after.dropWhile fun R => decide (R.Start ≤ Range.End) := ⟨_, rfl⟩
  have hsplit' : run ++ rest = after := by rw [hr, ht, List.takeWhile_append_dropWhile]
  have hnormal : Normalised (before ++ (run ++ rest)) := by rwa [hsplit', hsplit]
  have hrun : ∀ t ∈ run, t.Start ≤ Range.End := by
    intro t htmem
    rw [hr] at htmem
    have htest := List.mem_takeWhile_imp htmem
    exact of_decide_eq_true htest
  have hrest : ∀ t ∈ rest, Range.End < t.Start := by
    intro t htmem
    rw [ht] at htmem
    have hsub : after.Sublist Ranges := ha ▸ List.dropWhile_sublist _
    have htest := of_mem_dropWhile ((hstarts.sublist hsub).imp fun {R S} hRS hpass => by
      rw [decide_eq_true_eq] at hpass ⊢
      omega) htmem
    exact Nat.not_le.mp (of_decide_eq_false htest)
  rw [← hr, ← ht]
  have hnormalAfter : Normalised (run ++ rest) := hnormal.sublist (List.sublist_append_right _ _)
  obtain ⟨hstart, hend, hbound, haddresses⟩ := mergeRight_spec
    (hnormalAfter.sublist (List.sublist_append_left _ _))
    fun t htmem => ⟨hafter t (hsplit' ▸ List.mem_append_left _ htmem), hrun t htmem⟩
  have hspec := mergeLeft_spec hnormal hbefore hlt hstart hend (fun t htmem => hbound t.Start
    (hrest t htmem) fun r hrmem => (List.pairwise_append.mp hnormalAfter.apart).2.2 r hrmem t htmem)
    haddresses
  rwa [hsplit', hsplit] at hspec

theorem insert_empty (Ranges : List AddressRange) {Range : AddressRange}
    (hempty : Range.empty = true) : insert Ranges Range = (Ranges.length, Ranges) := if_pos hempty

theorem not_mem_of_empty {Range : AddressRange} (hempty : Range.empty = true) (x : Nat) :
    x ∉ Range.addresses := by
  rintro ⟨hle, hlt⟩
  have hends := AddressRange.empty_iff.mp hempty
  omega

theorem insertAll_append (inserts : List AddressRange) (Range : AddressRange) :
    insertAll (inserts ++ [Range]) = (insert (insertAll inserts) Range).2 := by
  rw [insertAll, List.foldl_append]
  rfl

theorem insertAll_spec (inserts : List AddressRange) :
    Normalised (insertAll inserts) ∧ addresses (insertAll inserts) = addresses inserts := by
  induction inserts using List.reverseRecOn with
  | nil =>
    refine ⟨⟨fun t ht => ?_, List.Pairwise.nil⟩, rfl⟩
    cases ht
  | append_singleton inserts Range ih =>
    obtain ⟨hnormal, hsame⟩ := ih
    have hnil : ∀ x, x ∉ addresses [] := fun x hx => by simp [covered] at hx
    rw [insertAll_append]
    cases hempty : Range.empty with
    | true =>
      rw [insert_empty _ hempty]
      refine ⟨hnormal, ?_⟩
      ext x
      rw [hsame, mem_covered_append, mem_covered_cons]
      have hx := not_mem_of_empty hempty x
      grind
    | false =>
      have hspec := insert_spec hnormal hempty
      refine ⟨hspec.normalised, ?_⟩
      ext x
      rw [hspec.addresses, hsame, mem_covered_append, mem_covered_cons]
      grind

theorem addresses_perm {inserts inserts' : List AddressRange} (h : inserts.Perm inserts') :
    addresses inserts = addresses inserts' := by
  ext x
  constructor
  · rintro ⟨R, hR, hx⟩
    exact ⟨R, h.mem_iff.mp hR, hx⟩
  · rintro ⟨R, hR, hx⟩
    exact ⟨R, h.mem_iff.mpr hR, hx⟩

theorem eq_of_addresses {l m : List AddressRange} (hl : Normalised l) (hm : Normalised m)
    (hsame : addresses l = addresses m) : l = m :=
  hl.ext (fun _ _ hstart hend => AddressRange.ext hstart hend) hm hsame

theorem covers_iff {l : List AddressRange} (h : Normalised l) {Range : AddressRange}
    (hnonempty : Range.empty = false) :
    (∃ R ∈ l, R.contains Range = true) ↔ Range.addresses ⊆ addresses l := by
  have hlt : Range.Start < Range.End := by
    rw [← Nat.not_le, ← AddressRange.empty_iff, hnonempty]
    exact Bool.false_ne_true
  constructor
  · rintro ⟨R, hR, hcontains⟩ x ⟨hle, hlt⟩
    simp only [AddressRange.contains, Bool.and_eq_true, decide_eq_true_eq] at hcontains
    exact ⟨R, hR, by omega, by omega⟩
  · intro hsub
    obtain ⟨R, hR, hle, hlt'⟩ := hsub ⟨Nat.le_refl _, hlt⟩
    refine ⟨R, hR, ?_⟩
    simp only [AddressRange.contains, Bool.and_eq_true, decide_eq_true_eq]
    refine ⟨hle, Nat.not_lt.mp fun hshort => ?_⟩
    -- The end of the element would be covered by another one that touches it.
    obtain ⟨S, hS, hSle, hSlt⟩ := hsub ⟨by omega, hshort⟩
    obtain ⟨as, bs, rfl⟩ := List.append_of_mem hR
    have happart := List.pairwise_append.mp h.apart
    have hbs := (List.pairwise_cons.mp happart.2.1).1
    rcases List.mem_append.mp hS with hS | hS
    · have hlt := happart.2.2 S hS R List.mem_cons_self
      omega
    · rcases List.mem_cons.mp hS with rfl | hS
      · omega
      · have hgap := hbs S hS
        omega

end AddressRanges

/-! ## Splitting -/

namespace AddressRangesMap

open Loop

abbrev Sorted (Ranges : List AddressRangeValuePair) : Prop :=
  Ascending (fun p => p.Range.Start) (fun p => p.Range.End) Ranges

/-- The collection carries this value at the address. -/
def Holds (Ranges : List AddressRangeValuePair) (x : Nat) (v : Int) : Prop :=
  ∃ p ∈ Ranges, x ∈ p.Range.addresses ∧ p.Value = v

theorem holds_append {l m : List AddressRangeValuePair} {x : Nat} {v : Int} :
    Holds (l ++ m) x v ↔ Holds l x v ∨ Holds m x v := by
  constructor
  · rintro ⟨p, hp, hx⟩
    rcases List.mem_append.mp hp with hp | hp
    · exact Or.inl ⟨p, hp, hx⟩
    · exact Or.inr ⟨p, hp, hx⟩
  · rintro (⟨p, hp, hx⟩ | ⟨p, hp, hx⟩)
    · exact ⟨p, List.mem_append_left _ hp, hx⟩
    · exact ⟨p, List.mem_append_right _ hp, hx⟩

theorem holds_cons {p : AddressRangeValuePair} {l : List AddressRangeValuePair} {x : Nat} {v : Int} :
    Holds (p :: l) x v ↔ (x ∈ p.Range.addresses ∧ p.Value = v) ∨ Holds l x v := by
  simp [Holds]

theorem holds_nil {x : Nat} {v : Int} : ¬Holds [] x v := by
  rintro ⟨p, hp, -⟩
  cases hp

/-- No value is carried at the address. -/
def Free (Ranges : List AddressRangeValuePair) (x : Nat) : Prop := ∀ v, ¬Holds Ranges x v

/-- The collection, with the value where it carries none and the address is in the range. -/
def Filled (Ranges : List AddressRangeValuePair) (R : AddressRange) (Value : Int) (x : Nat) (v : Int) :
    Prop :=
  Holds Ranges x v ∨ x ∈ R.addresses ∧ Free Ranges x ∧ v = Value

/-- The loop has filled in the range up to what is left of it. -/
structure Filling (F : Nat → Int → Prop) (Value : Int) (s : Inserting) : Prop where
  sorted : Sorted (s.before ++ s.after)
  nonempty : s.Range.Start < s.Range.End
  behind : ∀ p ∈ s.before, p.Range.End ≤ s.Range.Start
  filled : ∀ x v, F x v ↔ Filled (s.before ++ s.after) s.Range Value x v

/-- The collection is sorted and carries the values wanted. -/
structure Carries (F : Nat → Int → Prop) (Ranges : List AddressRangeValuePair) : Prop where
  sorted : Sorted Ranges
  holds : ∀ x v, F x v ↔ Holds Ranges x v

/-- A bound on the turns that are left. -/
def Inserting.left (s : Inserting) : Nat :=
  2 * s.after.length +
    match s.after with
    | [] => 0
    | It :: _ => if s.Range.Start < It.Range.Start then 1 else 0

theorem free_append {l m : List AddressRangeValuePair} {x : Nat} :
    Free (l ++ m) x ↔ Free l x ∧ Free m x := by
  unfold Free
  simp only [holds_append, not_or, forall_and]

theorem free_cons {p : AddressRangeValuePair} {l : List AddressRangeValuePair} {x : Nat} :
    Free (p :: l) x ↔ x ∉ p.Range.addresses ∧ Free l x := by
  unfold Free
  simp only [holds_cons, not_or, forall_and]
  refine and_congr_left fun _ => ⟨fun h hx => h p.Value ⟨hx, rfl⟩, fun h v hv => h hv.1⟩

theorem free_between {before after : List AddressRangeValuePair} {R : AddressRange} {x : Nat}
    (hleft : ∀ p ∈ before, p.Range.End ≤ R.Start) (hright : ∀ p ∈ after, R.End ≤ p.Range.Start)
    (hx : x ∈ R.addresses) : Free (before ++ after) x := by
  obtain ⟨hlo, hhi⟩ := hx
  rintro v ⟨p, hp, ⟨hple, hplt⟩, -⟩
  rcases List.mem_append.mp hp with hp | hp
  · have hend := hleft p hp
    omega
  · have hstart := hright p hp
    omega

theorem filled_insert {before after : List AddressRangeValuePair} {R : AddressRange} {Value : Int}
    (hleft : ∀ p ∈ before, p.Range.End ≤ R.Start) (hright : ∀ p ∈ after, R.End ≤ p.Range.Start)
    (x : Nat) (v : Int) :
    Filled (before ++ after) R Value x v ↔ Holds (before ++ ⟨R, Value⟩ :: after) x v := by
  have hfree := free_between (x := x) hleft hright
  unfold Filled
  rw [holds_append, holds_append, holds_cons]
  constructor
  · rintro ((hv | hv) | ⟨hx, -, rfl⟩)
    · exact Or.inl hv
    · exact Or.inr (Or.inr hv)
    · exact Or.inr (Or.inl ⟨hx, rfl⟩)
  · rintro (hv | ⟨hx, rfl⟩ | hv)
    · exact Or.inl (Or.inl hv)
    · exact Or.inr ⟨hx, hfree hx, rfl⟩
    · exact Or.inl (Or.inr hv)

theorem filled_shrink {Ranges : List AddressRangeValuePair} {R R' : AddressRange} {Value : Int}
    (hsub : ∀ x ∈ R'.addresses, x ∈ R.addresses)
    (hrest : ∀ x ∈ R.addresses, x ∈ R'.addresses ∨ ¬Free Ranges x) (x : Nat) (v : Int) :
    Filled Ranges R Value x v ↔ Filled Ranges R' Value x v := by
  unfold Filled
  refine or_congr_right ⟨?_, ?_⟩
  · rintro ⟨hx, hfree, hv⟩
    exact ⟨(hrest x hx).resolve_right (not_not.mpr hfree), hfree, hv⟩
  · rintro ⟨hx, hfree, hv⟩
    exact ⟨hsub x hx, hfree, hv⟩

theorem filled_split {before after : List AddressRangeValuePair} {R P R' : AddressRange} {Value : Int}
    (hleft : ∀ p ∈ before, p.Range.End ≤ P.Start) (hright : ∀ p ∈ after, P.End ≤ p.Range.Start)
    (hparts : ∀ x, x ∈ R.addresses ↔ x ∈ P.addresses ∨ x ∈ R'.addresses) (x : Nat) (v : Int) :
    Filled (before ++ after) R Value x v ↔
      Filled (before ++ ⟨P, Value⟩ :: after) R' Value x v := by
  have hP := @filled_insert _ _ _ Value hleft hright x v
  have hx := hparts x
  have hnew : Free (before ++ ⟨P, Value⟩ :: after) x ↔ Free (before ++ after) x ∧ x ∉ P.addresses := by
    rw [free_append, free_append, free_cons]
    grind
  unfold Filled at hP ⊢
  rw [← hP, hnew, hx]
  grind

theorem Inserting.left_lt {before before' after : List AddressRangeValuePair}
    {It : AddressRangeValuePair} {R R' : AddressRange} :
    Inserting.left ⟨before', after, R'⟩ < Inserting.left ⟨before, It :: after, R⟩ := by
  have hle : (match after with
      | [] => 0
      | It :: _ => if R'.Start < It.Range.Start then 1 else 0) ≤ 1 := by
    split
    · exact Nat.zero_le 1
    · split <;> omega
  simp only [Inserting.left, List.length_cons]
  omega

theorem insertTurn_spec {F : Nat → Int → Prop} {Value : Int} {s : Inserting}
    (h : Filling F Value s) :
    (insertTurn Value s).Sat (fun s' => Filling F Value s' ∧ s'.left < s.left) (Carries F) := by
  obtain ⟨before, after, R⟩ := s
  obtain ⟨hsorted, hnonempty, hbehind, hfilled⟩ := h
  dsimp only at hsorted hnonempty hbehind hfilled
  have hbefore : Sorted before := hsorted.sublist (List.sublist_append_left _ _)
  have hafter : Sorted after := hsorted.sublist (List.sublist_append_right _ _)
  have hfull : R.empty ≠ true := by
    rw [Ne, AddressRange.empty_iff]
    exact Nat.not_le.mpr hnonempty
  unfold insertTurn
  rw [if_neg hfull]
  cases after with
  | nil =>
    have hright : ∀ p ∈ ([] : List AddressRangeValuePair), R.End ≤ p.Range.Start := by
      intro p hp
      cases hp
    refine ⟨hbefore.insert hafter hnonempty hbehind hright, fun x v => ?_⟩
    rw [hfilled]
    exact filled_insert hbehind hright x v
  | cons It rest =>
    have hrest := (List.pairwise_cons.mp hafter.disjoint).1
    have hIt := hafter.nonempty It List.mem_cons_self
    dsimp only at hrest hIt ⊢
    by_cases hend : R.End ≤ It.Range.Start
    · rw [dif_pos hend]
      have hright : ∀ p ∈ It :: rest, R.End ≤ p.Range.Start := by
        intro p hp
        rcases List.mem_cons.mp hp with rfl | hp
        · exact hend
        · have hnext := hrest p hp
          omega
      refine ⟨hbefore.insert hafter hnonempty hbehind hright, fun x v => ?_⟩
      rw [hfilled]
      exact filled_insert hbehind hright x v
    · rw [dif_neg hend]
      by_cases hstart : R.Start < It.Range.Start
      · rw [dif_pos hstart]
        have hright : ∀ p ∈ It :: rest, It.Range.Start ≤ p.Range.Start := by
          intro p hp
          rcases List.mem_cons.mp hp with rfl | hp
          · exact Nat.le_refl _
          · have hnext := hrest p hp
            omega
        refine ⟨⟨?_, ?_, ?_, ?_⟩, ?_⟩
        · dsimp only
          rw [List.append_assoc, List.singleton_append]
          exact hbefore.insert hafter hstart hbehind hright
        · exact Nat.not_le.mp hend
        · intro p hp
          rcases List.mem_append.mp hp with hp | hp
          · exact (hbehind p hp).trans hstart.le
          · rw [List.mem_singleton.mp hp]
        · intro x v
          rw [hfilled, List.append_assoc, List.singleton_append]
          refine filled_split (P := ⟨R.Start, It.Range.Start, hstart.le, _⟩) hbehind hright
            (fun x => ?_) x v
          simp only [Set.mem_Ico]
          omega
        · simp [Inserting.left, hstart]
      · rw [dif_neg hstart]
        have hItmem : It ∈ before ++ It :: rest := List.mem_append_right _ List.mem_cons_self
        by_cases hover : R.End ≤ It.Range.End
        · rw [dif_pos hover]
          refine ⟨hsorted, fun x v => ?_⟩
          rw [hfilled]
          refine or_iff_left ?_
          rintro ⟨⟨hle, hlt⟩, hfree, -⟩
          exact hfree It.Value ⟨It, hItmem, ⟨by omega, by omega⟩, rfl⟩
        · rw [dif_neg hover]
          -- What is left starts where it did, or where the current range ends.
          have hnext (R' : AddressRange) (hRend : R'.End = R.End) (hlo : It.Range.End ≤ R'.Start)
              (hcut : R'.Start = R.Start ∨ R'.Start = It.Range.End ∧ R.Start < It.Range.End) :
              Filling F Value ⟨before ++ [It], rest, R'⟩ := by
            have hsame : before ++ [It] ++ rest = before ++ It :: rest := by
              rw [List.append_assoc, List.singleton_append]
            refine ⟨?_, ?_, ?_, ?_⟩
            · dsimp only
              rw [hsame]
              exact hsorted
            · dsimp only
              omega
            · intro p hp
              rcases List.mem_append.mp hp with hp | hp
              · have hle := hbehind p hp
                dsimp only
                omega
              · rw [List.mem_singleton.mp hp]
                exact hlo
            · intro x v
              rw [hfilled, hsame]
              refine filled_shrink (fun x hx => ?_) (fun x hx => ?_) x v
              · simp only [Set.mem_Ico] at hx ⊢
                omega
              · simp only [Set.mem_Ico] at hx ⊢
                by_cases hin : x < R'.Start
                · refine Or.inr fun hfree => ?_
                  exact hfree It.Value ⟨It, hItmem, ⟨by omega, by omega⟩, rfl⟩
                · exact Or.inl ⟨by omega, by omega⟩
          refine ⟨hnext _ ?_ ?_ ?_, Inserting.left_lt⟩
          · split <;> rfl
          · split
            · exact Nat.le_refl _
            · omega
          · split
            · rename_i hcut
              exact Or.inr ⟨rfl, hcut⟩
            · exact Or.inl rfl

theorem insert_spec {Ranges : List AddressRangeValuePair} (h : Sorted Ranges) (R : AddressRange)
    (Value : Int) :
    ∃ l, (∀ turns, 2 * Ranges.length + 1 < turns → insert turns Ranges R Value = some l) ∧
      Carries (Filled Ranges R Value) l := by
  unfold insert
  cases hempty : R.empty with
  | true =>
    refine ⟨Ranges, fun _ _ => rfl, h, fun x v => ?_⟩
    refine or_iff_left ?_
    rintro ⟨hx, -⟩
    exact AddressRanges.not_mem_of_empty hempty x hx
  | false =>
    have hnonempty : R.Start < R.End := by
      rw [← Nat.not_le, ← AddressRange.empty_iff, hempty]
      exact Bool.false_ne_true
    obtain ⟨early, hearly⟩ :
      ∃ l, l = Ranges.takeWhile fun p => decide (p.Range.Start ≤ R.Start) := ⟨_, rfl⟩
    obtain ⟨late, hlate⟩ :
      ∃ l, l = Ranges.dropWhile fun p => decide (p.Range.Start ≤ R.Start) := ⟨_, rfl⟩
    rw [← hearly, ← hlate]
    have hback : early.dropLast ++ early.getLast?.toList = early := by
      cases hlast : early.getLast? with
      | none => rw [List.getLast?_eq_none_iff.mp hlast]; rfl
      | some p =>
        obtain ⟨ys, hys⟩ := List.getLast?_eq_some_iff.mp hlast
        rw [hys, List.dropLast_concat]
        rfl
    have hsplit : early.dropLast ++ (early.getLast?.toList ++ late) = Ranges := by
      rw [← List.append_assoc, hback, hearly, hlate, List.takeWhile_append_dropWhile]
    have hstart : Filling (Filled Ranges R Value) Value
        ⟨early.dropLast, early.getLast?.toList ++ late, R⟩ := by
      refine ⟨?_, hnonempty, fun p hp => ?_, fun x v => ?_⟩
      · rw [hsplit]
        exact h
      · -- The range stepped back to starts early, and behind those before it.
        obtain ⟨ys, q, hys⟩ : ∃ ys q, early = ys ++ [q] := by
          cases hlast : early.getLast? with
          | none =>
            rw [List.getLast?_eq_none_iff.mp hlast] at hp
            cases hp
          | some q =>
            obtain ⟨ys, hys⟩ := List.getLast?_eq_some_iff.mp hlast
            exact ⟨ys, q, hys⟩
        have hq : q ∈ early := by simp [hys]
        have hqstart := hearly ▸ hq
        have htest := List.mem_takeWhile_imp hqstart
        have hdisjoint : Sorted early := h.sublist (hearly ▸ List.takeWhile_sublist _)
        rw [hys] at hdisjoint
        rw [hys, List.dropLast_concat] at hp
        have hend := (List.pairwise_append.mp hdisjoint.disjoint).2.2 p hp q
          (List.mem_singleton_self _)
        exact Nat.le_trans hend (of_decide_eq_true htest)
      · rw [hsplit]
    have hrule : ∃ l, (∀ fuel, 0 < fuel → ∀ turns,
          Inserting.left ⟨early.dropLast, early.getLast?.toList ++ late, R⟩ < turns →
          loop (fun s => some (insertTurn Value s)) turns
            ⟨early.dropLast, early.getLast?.toList ++ late, R⟩ = some l) ∧
        Carries (Filled Ranges R Value) l := by
      refine loop_rule (fun _ s => some (insertTurn Value s)) 0 Inserting.left (fun s hs => ?_)
        hstart
      exact ⟨_, fun _ _ => rfl, insertTurn_spec hs⟩
    obtain ⟨l, hrun, hcarries⟩ := hrule
    refine ⟨l, fun turns hturns => ?_, hcarries⟩
    have hlength := congrArg List.length hsplit
    rw [List.length_append] at hlength
    have hleft : Inserting.left ⟨early.dropLast, early.getLast?.toList ++ late, R⟩ ≤
        2 * (early.getLast?.toList ++ late).length + 1 := by
      unfold Inserting.left
      dsimp only
      split
      · exact Nat.le_succ _
      · split <;> omega
    exact hrun 1 Nat.one_pos turns (by omega)

/-- A run of insertions, each with the same bound on the turns of its loop. -/
def insertAll (turns : Nat) (inserts : List (AddressRange × Int)) :
    Option (List AddressRangeValuePair) :=
  inserts.foldlM (fun Ranges p => insert turns Ranges p.1 p.2) []

/-- The value of the first inserted range that contains the address. -/
def firstValue (inserts : List (AddressRange × Int)) (Addr : Nat) : Option Int :=
  (inserts.find? fun p => p.1.containsAddr Addr).map Prod.snd

theorem firstValue_append (inserts : List (AddressRange × Int)) (R : AddressRange) (Value : Int)
    (Addr : Nat) :
    firstValue (inserts ++ [(R, Value)]) Addr =
      (firstValue inserts Addr).or (if R.containsAddr Addr then some Value else none) := by
  unfold firstValue
  rw [List.find?_append]
  cases inserts.find? fun p => p.1.containsAddr Addr with
  | some p => rfl
  | none =>
    by_cases hin : R.containsAddr Addr
    · simp [hin]
    · simp [hin]

theorem insertAll_spec (inserts : List (AddressRange × Int)) :
    ∃ l bound, (∀ turns, bound < turns → insertAll turns inserts = some l) ∧
      Carries (fun x v => firstValue inserts x = some v) l := by
  induction inserts using List.reverseRecOn with
  | nil =>
    refine ⟨[], 0, fun _ _ => rfl, ⟨fun p hp => ?_, List.Pairwise.nil⟩, fun x v => ?_⟩
    · cases hp
    · exact iff_of_false (fun hv => by cases hv) holds_nil
  | append_singleton inserts p ih =>
    obtain ⟨l, bound, hrun, hcarries⟩ := ih
    obtain ⟨l', hinsert, hcarries'⟩ := insert_spec hcarries.sorted p.1 p.2
    refine ⟨l', max bound (2 * l.length + 1), fun turns hturns => ?_, hcarries'.sorted, ?_⟩
    · have hfirst := hrun turns (by omega)
      unfold insertAll at hfirst ⊢
      rw [List.foldlM_append, hfirst]
      show (insert turns l p.1 p.2).bind (fun l => some l) = some l'
      rw [hinsert turns (by omega), Option.bind_some]
    · intro x v
      rw [← hcarries'.holds, firstValue_append]
      unfold Filled
      rw [← hcarries.holds]
      cases hv : firstValue inserts x with
      | some w =>
        have hfull : ¬Free l x := fun hfree => hfree w ((hcarries.holds x w).mp hv)
        simp [hfull]
      | none =>
        have hfree : Free l x := fun w hw => by
          have hw' := (hcarries.holds x w).mpr hw
          rw [hv] at hw'
          cases hw'
        rw [← AddressRange.containsAddr_iff]
        by_cases hin : p.1.containsAddr x = true
        · simp [hin, hfree, eq_comm]
        · simp [hin]

end AddressRangesMap

/-- What a collection of ranges is after a run of insertions. -/
structure AddressRanges.Collects (inserts Ranges : List AddressRange) : Prop where
  normalised : Normalised Ranges
  union : ∀ x, x ∈ addresses Ranges ↔ ∃ R ∈ inserts, x ∈ R.addresses
  iterator : ∀ Range, Range.empty = false → ∃ R,
    (insert Ranges Range).2[(insert Ranges Range).1]? = some R ∧ R.contains Range = true
  none : ∀ Range, Range.empty = true → insert Ranges Range = (Ranges.length, Ranges)
  containsAddr : ∀ Addr < 2 ^ 64,
    containsAddr id Ranges Addr = true ↔ ∃ R ∈ inserts, Addr ∈ R.addresses
  containsRange : ∀ Range, containsRange id Ranges Range = true ↔
    Range.empty = false ∧ ∀ x ∈ Range.addresses, ∃ R ∈ inserts, x ∈ R.addresses
  order : ∀ inserts', inserts'.Perm inserts → insertAll inserts' = Ranges

/-- What a collection of ranges with values is after a run of insertions. -/
structure AddressRangesMap.Collects (inserts : List (AddressRange × Int))
    (Ranges : List AddressRangeValuePair) : Prop where
  sorted : Sorted Ranges
  value : ∀ Addr < 2 ^ 64, (getRangeThatContains AddressRangeValuePair.Range Ranges Addr).map
    AddressRangeValuePair.Value = firstValue inserts Addr
  range : ∀ Addr < 2 ^ 64, ∀ p, getRangeThatContains AddressRangeValuePair.Range Ranges Addr =
    some p → Addr ∈ p.Range.addresses

theorem AddressRanges.insertAll_collects (inserts : List AddressRange) :
    Collects inserts (insertAll inserts) := by
  obtain ⟨hnormal, hsame⟩ := insertAll_spec inserts
  have hunion (x : Nat) : x ∈ addresses (insertAll inserts) ↔ ∃ R ∈ inserts, x ∈ R.addresses := by
    rw [hsame]
    exact Iff.rfl
  refine ⟨hnormal, hunion, fun Range hfull => (insert_spec hnormal hfull).designated,
    fun Range hempty => insert_empty _ hempty, fun Addr haddr => ?_, fun Range => ?_, ?_⟩
  · exact (containsAddr_iff hnormal.ascending haddr).trans (hunion Addr)
  · refine (containsRange_iff hnormal.ascending).trans (and_congr_right fun hfull => ?_)
    refine (covers_iff hnormal hfull).trans ?_
    exact forall₂_congr fun x _ => hunion x
  · intro inserts' hperm
    obtain ⟨hnormal', hsame'⟩ := insertAll_spec inserts'
    refine eq_of_addresses hnormal' hnormal ?_
    rw [hsame', hsame]
    exact addresses_perm hperm

theorem AddressRangesMap.Carries.collects {inserts : List (AddressRange × Int)}
    {l : List AddressRangeValuePair} (h : Carries (fun x v => firstValue inserts x = some v) l) :
    Collects inserts l := by
  refine ⟨h.sorted, fun Addr haddr => ?_, fun Addr haddr p hp => ?_⟩
  · apply Option.ext
    intro v
    rw [h.holds, Option.map_eq_some_iff]
    constructor
    · rintro ⟨p, hp, hv⟩
      obtain ⟨hmem, hin⟩ := (getRangeThatContains_eq_some h.sorted haddr).mp hp
      exact ⟨p, hmem, hin, hv⟩
    · rintro ⟨p, hmem, hin, hv⟩
      exact ⟨p, (getRangeThatContains_eq_some h.sorted haddr).mpr ⟨hmem, hin⟩, hv⟩
  · exact ((getRangeThatContains_eq_some h.sorted haddr).mp hp).2

/-- After any insertions both collections are in order and answer as the insertions say. -/
theorem collections_normalised :
    (∀ inserts, AddressRanges.Collects inserts (AddressRanges.insertAll inserts)) ∧
      ∀ inserts, ∃ l bound,
        (∀ turns, bound < turns → AddressRangesMap.insertAll turns inserts = some l) ∧
          AddressRangesMap.Collects inserts l := by
  refine ⟨AddressRanges.insertAll_collects, fun inserts => ?_⟩
  obtain ⟨l, bound, hrun, hcarries⟩ := AddressRangesMap.insertAll_spec inserts
  exact ⟨l, bound, hrun, hcarries.collects⟩

def sampleRange (Start size : Nat) (h : Start + size < 2 ^ 64) : AddressRange :=
  ⟨Start, Start + size, Nat.le_add_right Start size, h⟩

theorem touching_ranges_merge :
    AddressRanges.Collects [sampleRange 5 2 (by decide), sampleRange 0 5 (by decide)]
      [sampleRange 0 7 (by decide)] := by
  have hcollects := collections_normalised.1 [sampleRange 5 2 (by decide), sampleRange 0 5 (by decide)]
  rwa [show AddressRanges.insertAll [sampleRange 5 2 (by decide), sampleRange 0 5 (by decide)] =
    [sampleRange 0 7 (by decide)] by decide] at hcollects

/-- For an empty range the iterator is the end, and the range is not found in one around it. -/
theorem empty_range_designates_nothing :
    (AddressRanges.insert [sampleRange 0 7 (by decide)] (sampleRange 5 0 (by decide))).2[
        (AddressRanges.insert [sampleRange 0 7 (by decide)] (sampleRange 5 0 (by decide))).1]? = none ∧
      (sampleRange 0 7 (by decide)).contains (sampleRange 5 0 (by decide)) = true ∧
      containsRange id [sampleRange 0 7 (by decide)] (sampleRange 5 0 (by decide)) = false := by
  decide

end SmlnjLlvm
