import SmlnjLlvm.Codegen.LiveRange

/-!
# Queries on live ranges

What the queries compute, in terms of the sets of indexes where the ranges are
live.
-/

namespace SmlnjLlvm.LiveInterval

open Loop RangeLists

variable {α : Type} [LinearOrder α] {segments other I : List (Segment α)} {mem : Memory α}
  {A B : LiveRange α} {Pos : α}

/-- The indexes where a list of segments is live. -/
abbrev live (segments : List (Segment α)) : Set α := covered Segment.Start Segment.End segments

/-- Segments in ascending order, without overlaps. -/
abbrev Sorted (segments : List (Segment α)) : Prop := Ascending Segment.Start Segment.End segments

theorem pairwise_of_follows (hlt : ∀ S ∈ segments, S.Start < S.End)
    (hchain : segments.IsChain Follows) : segments.Pairwise fun S T => S.End ≤ T.Start := by
  induction segments with
  | nil => exact List.Pairwise.nil
  | cons S rest ih =>
    have hrest := ih (fun T hT => hlt T (List.mem_cons_of_mem S hT)) hchain.tail
    refine List.Pairwise.cons ?_ hrest
    intro T hT
    cases rest with
    | nil => cases hT
    | cons N rest =>
      have hnext := (List.isChain_cons_cons.mp hchain).1.1
      rcases List.mem_cons.mp hT with rfl | hT
      · exact hnext
      · have hN := hlt N (List.mem_cons_of_mem S List.mem_cons_self)
        exact hnext.trans (hN.le.trans ((List.pairwise_cons.mp hrest).1 T hT))

theorem Verified.sorted (h : Verified mem A) : Sorted A.segments :=
  ⟨h.lt, pairwise_of_follows h.lt h.follows⟩

/-- The segments from an iterator on are all that is live from a position on. -/
structure Found (segments I : List (Segment α)) (Pos : α) : Prop where
  suffix : I <:+ segments
  live : ∀ x ≥ Pos, x ∈ live I ↔ x ∈ live segments

theorem Found.mono {Pos' : α} (h : Found segments I Pos) (hle : Pos ≤ Pos') :
    Found segments I Pos' :=
  ⟨h.suffix, fun x hx => h.live x (hle.trans hx)⟩

theorem Found.refl (segments : List (Segment α)) (Pos : α) : Found segments segments Pos :=
  ⟨List.suffix_rfl, fun _ _ => Iff.rfl⟩

theorem Found.trans {J : List (Segment α)} (h : Found segments I Pos) (h' : Found I J Pos) :
    Found segments J Pos :=
  ⟨h'.suffix.trans h.suffix, fun x hx => (h'.live x hx).trans (h.live x hx)⟩

theorem advanceTo_spec (hsorted : Sorted segments) (hI : I ≠ []) (h : Found segments I Pos) :
    ∃ J, advanceTo segments I Pos = some J ∧ Found segments J Pos ∧
      ∀ S ∈ J.head?, Pos < S.End := by
  obtain ⟨S, rest, rfl⟩ := List.exists_cons_of_ne_nil hI
  obtain ⟨before, hsegments⟩ := h.suffix
  obtain ⟨back, hback⟩ : ∃ back, (S :: rest).getLast? = some back :=
    ⟨_, List.getLast?_eq_some_getLast hI⟩
  have hlast : segments.getLast? = some back := by
    rw [← hsegments, List.getLast?_append, hback, Option.some_or]
  unfold advanceTo
  rw [hlast]
  dsimp only
  by_cases hend : back.End ≤ Pos
  · rw [if_pos hend]
    refine ⟨[], rfl, ⟨List.nil_suffix, ?_⟩, nofun⟩
    intro x hx
    constructor
    · rintro ⟨T, hT, -⟩
      cases hT
    · rintro ⟨T, hT, hxT⟩
      have hTend := hsorted.hi_le_getLast hlast hT
      exact absurd hxT.2 (not_lt.mpr (hTend.trans (hend.trans hx)))
  · rw [if_neg hend]
    cases hdrop : (S :: rest).dropWhile fun T => decide (T.End ≤ Pos) with
    | nil =>
      have hall := List.dropWhile_eq_nil_iff.mp hdrop back (List.mem_of_getLast? hback)
      exact absurd (of_decide_eq_true hall) hend
    | cons T J =>
      refine ⟨T :: J, rfl, ?_, ?_⟩
      · rw [← hdrop]
        exact h.trans ⟨List.dropWhile_suffix _, fun x hx => mem_covered_dropWhile hx⟩
      · intro T' hT'
        cases hT'
        have hfirst := List.head_dropWhile_not (p := fun T => decide (T.End ≤ Pos))
          (l := S :: rest) (by rw [hdrop]; exact List.cons_ne_nil T J)
        simp only [hdrop, List.head_cons, decide_eq_false_iff_not] at hfirst
        exact not_le.mp hfirst

/-- A step back over the segments that start early. -/
def fromStart (segments : List (Segment α)) (Pos : α) : List (Segment α) :=
  stepBack (segments.takeWhile fun S => S.Start ≤ Pos) (segments.dropWhile fun S => S.Start ≤ Pos)

theorem fromStart_split (hsorted : Sorted segments) (Pos : α) :
    ∃ before, before ++ fromStart segments Pos = segments ∧ ∀ S ∈ before, S.End ≤ Pos := by
  have hsplit := List.takeWhile_append_dropWhile (p := fun S => decide (S.Start ≤ Pos))
    (l := segments)
  unfold fromStart stepBack
  cases hlast : (segments.takeWhile fun S => decide (S.Start ≤ Pos)).getLast? with
  | none =>
    rw [List.getLast?_eq_none_iff.mp hlast] at hsplit
    exact ⟨[], hsplit, nofun⟩
  | some L =>
    obtain ⟨init, hinit⟩ := List.getLast?_eq_some_iff.mp hlast
    have hL : L.Start ≤ Pos := by
      have hmem := List.mem_of_getLast? hlast
      have hearly := List.mem_takeWhile_imp hmem
      exact of_decide_eq_true hearly
    rw [hinit, List.append_assoc] at hsplit
    refine ⟨init, hsplit, ?_⟩
    intro S hS
    have hdisjoint := hsorted.disjoint
    rw [← hsplit] at hdisjoint
    have hle := (List.pairwise_append.mp hdisjoint).2.2 S hS L
      (List.mem_append_left _ List.mem_cons_self)
    exact hle.trans hL

theorem live_fromStart (hsorted : Sorted segments) {x : α} (hx : Pos ≤ x) :
    x ∈ live (fromStart segments Pos) ↔ x ∈ live segments := by
  obtain ⟨before, hsplit, hbefore⟩ := fromStart_split hsorted Pos
  conv_rhs => rw [← hsplit]
  rw [live, live, mem_covered_append]
  constructor
  · exact Or.inr
  · rintro (⟨S, hS, hxS⟩ | hlive)
    · exact absurd hxS.2 (not_lt.mpr ((hbefore S hS).trans hx))
    · exact hlive

theorem sorted_fromStart (hsorted : Sorted segments) (Pos : α) :
    Sorted (fromStart segments Pos) := by
  obtain ⟨before, hsplit, -⟩ := fromStart_split hsorted Pos
  have hsub := List.sublist_append_right before (fromStart segments Pos)
  rw [hsplit] at hsub
  exact hsorted.sublist hsub

/-! ## Overlaps -/

/-- Both ranges are live somewhere. -/
def Meet (i j : List (Segment α)) : Prop := ∃ x, x ∈ live i ∧ x ∈ live j

theorem meet_comm {i j : List (Segment α)} : Meet i j ↔ Meet j i :=
  exists_congr fun _ => and_comm

theorem meet_cons {S T : Segment α} {i j : List (Segment α)} (hj : Sorted (T :: j))
    (hle : S.Start ≤ T.Start) :
    Meet (S :: i) (T :: j) ↔ T.Start < S.End ∨ Meet i (T :: j) := by
  have hT := hj.nonempty T List.mem_cons_self
  constructor
  · rintro ⟨x, hx, hx'⟩
    rcases mem_covered_cons.mp hx with hx | hx
    · exact Or.inl ((hj.lo_le hx').trans_lt hx.2)
    · exact Or.inr ⟨x, hx, hx'⟩
  · rintro (hlt | ⟨x, hx, hx'⟩)
    · exact ⟨T.Start, mem_covered_cons.mpr (Or.inl ⟨hle, hlt⟩),
        mem_covered_cons.mpr (Or.inl ⟨le_refl _, hT⟩)⟩
    · exact ⟨x, mem_covered_cons.mpr (Or.inr hx), hx'⟩

/-- The ranges from the iterators on meet if and only if the whole ranges do. -/
structure Overlapping (found : Prop) (s : List (Segment α) × List (Segment α)) : Prop where
  left : Sorted s.1
  right : Sorted s.2
  nonempty : s.2 ≠ []
  meet : Meet s.1 s.2 ↔ found

theorem overlapsTurn_spec {found : Prop} {s : List (Segment α) × List (Segment α)}
    (h : Overlapping found s) :
    ∃ t, overlapsTurn s = some t ∧ t.Sat
      (fun s' => Overlapping found s' ∧ s'.1.length + s'.2.length < s.1.length + s.2.length)
      fun b => b = true ↔ found := by
  obtain ⟨i, j⟩ := s
  obtain ⟨hi, hj, hne, hmeet⟩ := h
  cases i with
  | nil =>
    refine ⟨_, rfl, nofun, ?_⟩
    intro hfound
    obtain ⟨x, ⟨S, hS, -⟩, -⟩ := hmeet.mpr hfound
    cases hS
  | cons S i =>
    cases j with
    | nil => exact absurd rfl hne
    | cons T j =>
      simp only [overlapsTurn]
      by_cases hlt : T.Start < S.Start
      · rw [if_pos hlt]
        rw [meet_comm, meet_cons hi hlt.le] at hmeet
        by_cases hover : S.Start < T.End
        · rw [if_pos hover]
          exact ⟨_, rfl, iff_of_true rfl (hmeet.mp (Or.inl hover))⟩
        · rw [if_neg hover]
          rw [or_iff_right hover] at hmeet
          refine ⟨_, rfl, ⟨hj.of_cons, hi, List.cons_ne_nil S i, hmeet⟩, ?_⟩
          simp only [List.length_cons]
          omega
      · rw [if_neg hlt]
        rw [meet_cons hj (not_lt.mp hlt)] at hmeet
        by_cases hover : T.Start < S.End
        · rw [if_pos hover]
          exact ⟨_, rfl, iff_of_true rfl (hmeet.mp (Or.inl hover))⟩
        · rw [if_neg hover]
          rw [or_iff_right hover] at hmeet
          refine ⟨_, rfl, ⟨hi.of_cons, hj, List.cons_ne_nil T j, hmeet⟩, ?_⟩
          simp only [List.length_cons]
          omega

theorem overlapsLoop_spec {i j : List (Segment α)} (hi : Sorted i) (hj : Sorted j) :
    ∃ b, overlapsLoop i j = some b ∧ (b = true ↔ Meet i j) := by
  unfold overlapsLoop
  by_cases hne : j = []
  · rw [if_pos hne, hne]
    refine ⟨false, rfl, nofun, ?_⟩
    rintro ⟨x, -, T, hT, -⟩
    cases hT
  · rw [if_neg hne]
    have hstart : Overlapping (Meet i j) (i, j) := ⟨hi, hj, hne, Iff.rfl⟩
    obtain ⟨b, hrun, hb⟩ :=
      loop_total _ (fun s => s.1.length + s.2.length) (fun _ => overlapsTurn_spec) hstart
    exact ⟨b, hrun _ (Nat.lt_succ_self _), hb⟩

theorem overlapsFrom_begin (hA : Sorted A.segments) (hB : Sorted B.segments)
    (hneA : A.segments ≠ []) (hneB : B.segments ≠ []) :
    ∃ b, overlapsFrom A B 0 = some b ∧ (b = true ↔ Meet A.segments B.segments) := by
  obtain ⟨i, is, hi⟩ := List.exists_cons_of_ne_nil hneA
  obtain ⟨j, js, hj⟩ := List.exists_cons_of_ne_nil hneB
  have hfirst : ∀ x ∈ live B.segments, j.Start ≤ x := by
    rw [hj] at hB ⊢
    exact fun x => hB.lo_le
  have hfirst' : ∀ x ∈ live A.segments, i.Start ≤ x := by
    rw [hi] at hA ⊢
    exact fun x => hA.lo_le
  unfold overlapsFrom
  simp only [hi, hj, List.drop_zero, List.take_zero, List.nil_append, or_true, not_true_eq_false,
    if_false]
  rw [← hi, ← hj]
  by_cases hlt : i.Start < j.Start
  · rw [if_pos hlt]
    obtain ⟨b, hrun, hb⟩ := overlapsLoop_spec (sorted_fromStart hA j.Start) hB
    refine ⟨b, hrun, hb.trans ?_⟩
    refine exists_congr fun x => and_congr_left fun hx => ?_
    exact live_fromStart hA (hfirst x hx)
  rw [if_neg hlt]
  by_cases hlt' : j.Start < i.Start
  · rw [if_pos hlt']
    by_cases hnext : (js.head?.any fun next => decide (next.Start ≤ i.Start)) = true
    · rw [if_pos hnext]
      obtain ⟨b, hrun, hb⟩ := overlapsLoop_spec hA (sorted_fromStart hB i.Start)
      refine ⟨b, hrun, hb.trans ?_⟩
      refine exists_congr fun x => and_congr_right fun hx => ?_
      exact live_fromStart hB (hfirst' x hx)
    · rw [if_neg hnext]
      exact overlapsLoop_spec hA hB
  · rw [if_neg hlt']
    have hsame : i.Start = j.Start := le_antisymm (not_lt.mp hlt') (not_lt.mp hlt)
    refine ⟨true, rfl, iff_of_true rfl ⟨i.Start, ?_, ?_⟩⟩
    · rw [hi] at hA ⊢
      exact ⟨i, List.mem_cons_self, le_refl _, hA.nonempty i List.mem_cons_self⟩
    · rw [hj] at hB ⊢
      exact ⟨j, List.mem_cons_self, hsame.ge, hsame.trans_lt (hB.nonempty j List.mem_cons_self)⟩

theorem overlaps_spec (hA : Sorted A.segments) {Start End : α} (hlt : Start < End) :
    ∃ b, overlaps A Start End = some b ∧
      (b = true ↔ ∃ x, x ∈ live A.segments ∧ Start ≤ x ∧ x < End) := by
  unfold overlaps
  rw [if_pos hlt]
  refine ⟨_, rfl, ?_⟩
  rw [Option.any_eq_true]
  constructor
  · rintro ⟨L, hlast, hover⟩
    have hmem := List.mem_of_getLast? hlast
    have hearly := List.mem_takeWhile_imp hmem
    have hL := (List.takeWhile_sublist _).subset hmem
    have hnonempty := hA.nonempty L hL
    exact ⟨max L.Start Start, ⟨L, hL, le_max_left _ _, max_lt hnonempty (of_decide_eq_true hover)⟩,
      le_max_right _ _, max_lt (of_decide_eq_true hearly) hlt⟩
  · rintro ⟨x, ⟨S, hS, hle, hend⟩, hstart, hx⟩
    -- The segment that holds the index starts early, so the last such segment ends no earlier.
    have hearly : S ∈ A.segments.takeWhile fun S => decide (S.Start < End) := by
      rw [← List.takeWhile_append_dropWhile (p := fun S => decide (S.Start < End))
        (l := A.segments), List.mem_append] at hS
      rcases hS with hS | hS
      · exact hS
      · have hmono : A.segments.Pairwise fun T T' =>
            decide (T'.Start < End) = true → decide (T.Start < End) = true :=
          hA.lo_lt.imp fun hlt hlt' => decide_eq_true (hlt.trans (of_decide_eq_true hlt'))
        have hlate := of_decide_eq_false (of_mem_dropWhile hmono hS)
        exact absurd (hle.trans_lt hx) hlate
    obtain ⟨L, hlast⟩ : ∃ L, (A.segments.takeWhile fun S => decide (S.Start < End)).getLast? =
        some L := ⟨_, List.getLast?_eq_some_getLast (List.ne_nil_of_mem hearly)⟩
    have hsorted := hA.sublist (List.takeWhile_sublist fun S => decide (S.Start < End))
    have hle := hsorted.hi_le_getLast hlast hearly
    exact ⟨L, hlast, decide_eq_true (hstart.trans_lt (hend.trans_le hle))⟩

/-! ## Covering -/

theorem coverEnd_spec {S : Segment α} {rest : List (Segment α)} (hsorted : Sorted (S :: rest))
    (End : α) :
    match coverEnd End (S :: rest) with
    | none => ∃ x, S.End ≤ x ∧ x < End ∧ x ∉ live (S :: rest)
    | some J => J ≠ [] ∧ Found (S :: rest) J End ∧
        ∀ x, S.Start ≤ x → x < End → x ∈ live (S :: rest) := by
  induction rest generalizing S with
  | nil =>
    simp only [coverEnd]
    by_cases hlt : S.End < End
    · rw [if_pos hlt]
      refine ⟨S.End, le_refl _, hlt, ?_⟩
      rintro ⟨T, hT, hx⟩
      rw [List.mem_singleton.mp hT] at hx
      exact lt_irrefl _ hx.2
    · rw [if_neg hlt]
      refine ⟨List.cons_ne_nil _ _, .refl _ _, ?_⟩
      intro x hstart hx
      exact ⟨S, List.mem_cons_self, hstart, hx.trans_le (not_lt.mp hlt)⟩
  | cons I rest ih =>
    have hnext : S.End ≤ I.Start :=
      (List.pairwise_cons.mp hsorted.disjoint).1 I List.mem_cons_self
    have hlast : ∀ x, S.End ≤ x → (x ∈ live (S :: I :: rest) ↔ x ∈ live (I :: rest)) := by
      intro x hx
      rw [live, mem_covered_cons]
      exact or_iff_right fun hmem => not_le.mpr hmem.2 hx
    rw [coverEnd]
    by_cases hlt : S.End < End
    · rw [if_pos hlt]
      by_cases hgap : S.End ≠ I.Start
      · rw [if_pos hgap]
        refine ⟨S.End, le_refl _, hlt, ?_⟩
        rw [hlast _ (le_refl _)]
        intro hmem
        exact hgap (le_antisymm hnext (hsorted.of_cons.lo_le hmem))
      · rw [if_neg hgap]
        have hrest := ih hsorted.of_cons
        have hI := hsorted.of_cons.nonempty I List.mem_cons_self
        cases hcover : coverEnd End (I :: rest) with
        | none =>
          rw [hcover] at hrest
          obtain ⟨x, hle, hx, hnot⟩ := hrest
          have hSx := hnext.trans (hI.le.trans hle)
          refine ⟨x, hSx, hx, ?_⟩
          rwa [hlast x hSx]
        | some J =>
          rw [hcover] at hrest
          obtain ⟨hne, hfound, hlive⟩ := hrest
          refine ⟨hne, ?_, ?_⟩
          · have hstep : Found (S :: I :: rest) (I :: rest) End :=
              ⟨List.suffix_cons _ _, fun x hx => (hlast x (hlt.le.trans hx)).symm⟩
            exact hstep.trans hfound
          · intro x hstart hx
            by_cases hS : x < S.End
            · exact ⟨S, List.mem_cons_self, hstart, hS⟩
            · rw [hlast x (not_lt.mp hS)]
              exact hlive x ((not_ne_iff.mp hgap).ge.trans (not_lt.mp hS)) hx
    · rw [if_neg hlt]
      refine ⟨List.cons_ne_nil _ _, .refl _ _, ?_⟩
      intro x hstart hx
      exact ⟨S, List.mem_cons_self, hstart, hx.trans_le (not_lt.mp hlt)⟩

theorem coversFrom_spec (hsorted : Sorted segments) (hother : Sorted other) (hI : I ≠ [])
    (hfound : ∀ O ∈ other, Found segments I O.Start) :
    ∃ b, coversFrom segments I other = some b ∧
      (b = true ↔ live other ⊆ live segments) := by
  induction other generalizing I with
  | nil => exact ⟨true, by rw [coversFrom], iff_of_true rfl fun x ⟨O, hO, _⟩ => by cases hO⟩
  | cons O later ih =>
    have hO := hother.nonempty O List.mem_cons_self
    have hlater := (List.pairwise_cons.mp hother.disjoint).1
    obtain ⟨J, hadvance, hJ, hfirst⟩ :=
      advanceTo_spec hsorted hI (hfound O List.mem_cons_self)
    rw [coversFrom, hadvance, some_bind]
    have hOlive : O.Start ∈ live (O :: later) :=
      mem_covered_cons.mpr (Or.inl ⟨le_refl _, hO⟩)
    cases J with
    | nil =>
      refine ⟨false, rfl, nofun, ?_⟩
      intro hsub
      have hnone := (hJ.live O.Start (le_refl _)).mpr (hsub hOlive)
      obtain ⟨T, hT, -⟩ := hnone
      cases hT
    | cons S rest =>
      have hstart : O.Start < S.End := hfirst S rfl
      have hJsorted := hsorted.sublist hJ.suffix.sublist
      dsimp only
      by_cases hhole : O.Start < S.Start
      · rw [if_pos hhole]
        refine ⟨false, rfl, nofun, ?_⟩
        intro hsub
        have hmem := (hJ.live O.Start (le_refl _)).mpr (hsub hOlive)
        exact absurd (hJsorted.lo_le hmem) (not_le.mpr hhole)
      · rw [if_neg hhole]
        have hcover := coverEnd_spec hJsorted O.End
        cases hend : coverEnd O.End (S :: rest) with
        | none =>
          rw [hend] at hcover
          obtain ⟨x, hle, hx, hnot⟩ := hcover
          refine ⟨false, rfl, nofun, ?_⟩
          intro hsub
          have hxO : O.Start ≤ x := hstart.le.trans hle
          exact absurd ((hJ.live x hxO).mpr
            (hsub (mem_covered_cons.mpr (Or.inl ⟨hxO, hx⟩)))) hnot
        | some K =>
          rw [hend] at hcover
          obtain ⟨hK, hKfound, hlive⟩ := hcover
          have hrest : ∀ O' ∈ later, Found segments K O'.Start := fun O' hO' =>
            (hJ.mono (hO.le.trans (hlater O' hO'))).trans (hKfound.mono (hlater O' hO'))
          obtain ⟨b, hrun, hb⟩ := ih hother.of_cons hK hrest
          refine ⟨b, hrun, hb.trans ?_⟩
          constructor
          · intro hsub x hx
            rcases mem_covered_cons.mp hx with hx | hx
            · exact (hJ.live x hx.1).mp (hlive x ((not_lt.mp hhole).trans hx.1) hx.2)
            · exact hsub hx
          · exact fun hsub x hx => hsub (mem_covered_cons.mpr (Or.inr hx))

theorem covers_spec (hA : Sorted A.segments) (hB : Sorted B.segments) (hne : A.segments ≠ []) :
    ∃ b, covers A B = some b ∧ (b = true ↔ live B.segments ⊆ live A.segments) := by
  rw [covers, if_neg hne]
  exact coversFrom_spec hA hB hne fun O _ => .refl A.segments O.Start

theorem isLiveFrom_spec (hsorted : Sorted segments) {Slots : List α}
    (hslots : Slots.Pairwise (· ≤ ·)) (hI : I ≠ []) (hfound : ∀ Slot ∈ Slots, Found segments I Slot) :
    ∃ b, isLiveFrom segments I Slots = some b ∧
      (b = true ↔ ∃ Slot ∈ Slots, Slot ∈ live segments) := by
  induction Slots generalizing I with
  | nil => exact ⟨false, by rw [isLiveFrom], nofun, fun ⟨_, h, _⟩ => by cases h⟩
  | cons Slot later ih =>
    obtain ⟨hlater, hsortedLater⟩ := List.pairwise_cons.mp hslots
    obtain ⟨J, hadvance, hJ, hfirst⟩ :=
      advanceTo_spec hsorted hI (hfound Slot List.mem_cons_self)
    rw [isLiveFrom, hadvance, some_bind]
    cases J with
    | nil =>
      refine ⟨false, rfl, nofun, ?_⟩
      rintro ⟨x, hx, hlive⟩
      have hle : Slot ≤ x := by
        rcases List.mem_cons.mp hx with rfl | hx
        · exact le_refl _
        · exact hlater x hx
      obtain ⟨T, hT, -⟩ := (hJ.live x hle).mpr hlive
      cases hT
    | cons S rest =>
      have hSlot : S.contains Slot = true ↔ Slot ∈ live segments := by
        rw [← hJ.live Slot (le_refl _), Segment.contains, Bool.and_eq_true,
          decide_eq_true_eq, decide_eq_true_eq]
        constructor
        · exact fun h => ⟨S, List.mem_cons_self, h⟩
        · exact fun h => ⟨(hsorted.sublist hJ.suffix.sublist).lo_le h, hfirst S rfl⟩
      dsimp only
      by_cases hcontains : S.contains Slot = true
      · rw [if_pos hcontains]
        exact ⟨true, rfl, iff_of_true rfl ⟨Slot, List.mem_cons_self, hSlot.mp hcontains⟩⟩
      · rw [if_neg hcontains]
        obtain ⟨b, hrun, hb⟩ := ih hsortedLater (List.cons_ne_nil S rest)
          fun Slot' h => hJ.mono (hlater Slot' h)
        refine ⟨b, hrun, hb.trans ?_⟩
        rw [List.exists_mem_cons_iff, or_iff_right (mt hSlot.mpr hcontains)]

theorem isLiveAtIndexes_spec (hA : Sorted A.segments) {Slots : List α}
    (hslots : Slots.Pairwise (· ≤ ·)) :
    ∃ b, isLiveAtIndexes A Slots = some b ∧
      (b = true ↔ ∃ Slot ∈ Slots, Slot ∈ live A.segments) := by
  unfold isLiveAtIndexes
  cases Slots with
  | nil => exact ⟨false, rfl, nofun, fun ⟨_, h, _⟩ => by cases h⟩
  | cons Slot later =>
    have hfind : ∀ x ∈ Slot :: later, Found A.segments (find A.segments Slot) x := by
      intro x hx
      have hle : Slot ≤ x := by
        rcases List.mem_cons.mp hx with rfl | hx
        · exact le_refl _
        · exact (List.pairwise_cons.mp hslots).1 x hx
      exact ⟨List.dropWhile_suffix _, fun y hy => mem_covered_dropWhile (hle.trans hy)⟩
    dsimp only
    cases hI : find A.segments Slot with
    | nil =>
      rw [hI] at hfind
      refine ⟨false, rfl, nofun, ?_⟩
      rintro ⟨x, hx, hlive⟩
      obtain ⟨T, hT, -⟩ := ((hfind x hx).live x (le_refl _)).mpr hlive
      cases hT
    | cons S rest =>
      rw [hI] at hfind
      exact isLiveFrom_spec hA hslots (List.cons_ne_nil S rest) hfind

end SmlnjLlvm.LiveInterval
