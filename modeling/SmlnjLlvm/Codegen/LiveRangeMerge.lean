import SmlnjLlvm.Codegen.LiveRangeQueries

/-!
# Merging the values of a live range

The merge of two values keeps what `verify` asserts, the indexes where the range
is live and the other values there.
-/

namespace SmlnjLlvm.LiveInterval

open Loop RangeLists

variable {α : Type} [LinearOrder α] {segments before after rest : List (Segment α)}
  {S T : Segment α} {V1 V2 : ValNo} {mem : Memory α} {LR : LiveRange α}

def identify (V1 V2 V : ValNo) : ValNo := if V = V1 then V2 else V

def LiveAs (V1 V2 : ValNo) (segments : List (Segment α)) (x : α) (V : ValNo) : Prop :=
  ∃ S ∈ segments, x ∈ Set.Ico S.Start S.End ∧ identify V1 V2 S.valno = V

theorem liveAs_append {x : α} {V : ValNo} : LiveAs V1 V2 (before ++ after) x V ↔
    LiveAs V1 V2 before x V ∨ LiveAs V1 V2 after x V := by
  simp only [LiveAs, List.mem_append, or_and_right, exists_or]

theorem liveAs_cons {x : α} {V : ValNo} : LiveAs V1 V2 (S :: rest) x V ↔
    (x ∈ Set.Ico S.Start S.End ∧ identify V1 V2 S.valno = V) ∨ LiveAs V1 V2 rest x V := by
  simp only [LiveAs, List.mem_cons, or_and_right, exists_or, exists_eq_left]

theorem isChain_insert : (before ++ S :: after).IsChain Follows ↔
    before.IsChain Follows ∧ (∀ P ∈ before.getLast?, Follows P S) ∧
      (∀ N ∈ after.head?, Follows S N) ∧ after.IsChain Follows := by
  rw [List.isChain_append, List.isChain_cons]
  simp only [List.head?_cons, Option.mem_def, Option.some.injEq, forall_eq']
  tauto

/-- What the iterator has behind it and before it. -/
structure Merging (V1 V2 : ValNo) (segments : List (Segment α))
    (s : List (Segment α) × List (Segment α)) : Prop where
  lt : ∀ S ∈ s.1 ++ s.2, S.Start < S.End
  follows : (s.1 ++ s.2).IsChain Follows
  merged : ∀ S ∈ s.1, S.valno ≠ V1
  values : ∀ x V, LiveAs V1 V2 (s.1 ++ s.2) x V ↔ LiveAs V1 V2 segments x V
  known : ∀ S ∈ s.1 ++ s.2, S.valno = V2 ∨ ∃ T ∈ segments, T.valno = S.valno

theorem mem_joined (hS : S.Start < S.End) (hT : T.Start < T.End) (htouch : S.End = T.Start) {x : α} :
    x ∈ Set.Ico S.Start T.End ↔ x ∈ Set.Ico S.Start S.End ∨ x ∈ Set.Ico T.Start T.End := by
  constructor
  · rintro ⟨hle, hlt⟩
    by_cases hx : x < S.End
    · exact Or.inl ⟨hle, hx⟩
    · exact Or.inr ⟨htouch ▸ not_lt.mp hx, hlt⟩
  · rintro (⟨hle, hlt⟩ | ⟨hle, hlt⟩)
    · exact ⟨hle, hlt.trans (htouch ▸ hT)⟩
    · exact ⟨hS.le.trans (htouch.le.trans hle), hlt⟩

/-- The segment, with the previous one where that is extended, as a segment of the other value. -/
structure Extended (V1 V2 : ValNo) (before : List (Segment α)) (S : Segment α)
    (r : List (Segment α) × Segment α) : Prop where
  lt : r.2.Start < r.2.End
  ends : r.2.End = S.End
  sublist : r.1.Sublist before
  follows : r.1.IsChain Follows
  last : ∀ P ∈ r.1.getLast?, Follows P { r.2 with valno := V2 }
  values : ∀ x V, (LiveAs V1 V2 r.1 x V ∨ x ∈ Set.Ico r.2.Start r.2.End ∧ V2 = V) ↔
    LiveAs V1 V2 before x V ∨ x ∈ Set.Ico S.Start S.End ∧ V2 = V

theorem extendPrevious_spec (hne : V1 ≠ V2) (hbefore : ∀ P ∈ before, P.Start < P.End)
    (hS : S.Start < S.End) (hchain : before.IsChain Follows)
    (hlast : ∀ P ∈ before.getLast?, P.End ≤ S.Start) :
    Extended V1 V2 before S (extendPrevious V2 before S) := by
  unfold extendPrevious
  cases hprev : before.getLast? with
  | none =>
    refine ⟨hS, rfl, List.Sublist.refl _, hchain, ?_, fun x V => Iff.rfl⟩
    intro P hP
    rw [hprev] at hP
    cases hP
  | some Prev =>
    dsimp only
    by_cases htouch : Prev.valno = V2 ∧ Prev.End = S.Start
    · rw [if_pos htouch]
      obtain ⟨init, rfl⟩ := List.getLast?_eq_some_iff.mp hprev
      have hPrev := hbefore Prev (List.mem_append_right init List.mem_cons_self)
      obtain ⟨hinit, hfollows, -, -⟩ := isChain_insert.mp hchain
      rw [List.dropLast_concat]
      refine ⟨hPrev.trans (htouch.2 ▸ hS), rfl, List.sublist_append_left _ _, hinit, ?_, ?_⟩
      · intro P hP
        rw [← htouch.1]
        exact hfollows P hP
      · intro x V
        have hid : identify V1 V2 Prev.valno = V2 := by
          rw [identify, if_neg (htouch.1.trans_ne hne.symm), htouch.1]
        have hnil : ¬ LiveAs V1 V2 ([] : List (Segment α)) x V := fun ⟨T, hT, _⟩ => by cases hT
        rw [liveAs_append, liveAs_cons, hid, mem_joined hPrev hS htouch.2]
        tauto
    · rw [if_neg htouch]
      refine ⟨hS, rfl, List.Sublist.refl _, hchain, ?_, fun x V => Iff.rfl⟩
      intro P hP
      rw [hprev] at hP
      cases hP
      exact ⟨hlast Prev hprev, fun hend hvalno => htouch ⟨hvalno, hend⟩⟩

/-- The segment, with the next one where that is merged. -/
structure Joined (V1 V2 : ValNo) (S : Segment α) (after : List (Segment α))
    (r : Segment α × List (Segment α)) : Prop where
  starts : r.1.Start = S.Start
  valno : r.1.valno = V2
  lt : r.1.Start < r.1.End
  sublist : r.2.Sublist after
  follows : r.2.IsChain Follows
  next : ∀ N ∈ r.2.head?, Follows r.1 N
  values : ∀ x V, (x ∈ Set.Ico r.1.Start r.1.End ∧ V2 = V ∨ LiveAs V1 V2 r.2 x V) ↔
    x ∈ Set.Ico S.Start S.End ∧ V2 = V ∨ LiveAs V1 V2 after x V
  shorter : r.2.length ≤ after.length

theorem mergeLater_spec (hne : V1 ≠ V2) (hafter : ∀ N ∈ after, N.Start < N.End)
    (hS : S.Start < S.End) (hvalno : S.valno = V2) (hchain : after.IsChain Follows)
    (hnext : ∀ N ∈ after.head?, S.End ≤ N.Start) :
    Joined V1 V2 S after (mergeLater V2 S after) := by
  unfold mergeLater
  cases after with
  | nil =>
    exact ⟨rfl, hvalno, hS, List.Sublist.refl _, hchain, nofun, fun x V => Iff.rfl, le_refl _⟩
  | cons N rest =>
    have hN := hafter N List.mem_cons_self
    obtain ⟨hrest, hchain'⟩ := List.isChain_cons.mp hchain
    dsimp only
    by_cases htouch : N.Start = S.End ∧ N.valno = V2
    · rw [if_pos htouch]
      refine ⟨rfl, hvalno, hS.trans (htouch.1 ▸ hN), List.sublist_cons_self _ _, hchain', ?_, ?_,
        Nat.le_succ _⟩
      · intro M hM
        obtain ⟨hle, htouch'⟩ := hrest M hM
        refine ⟨hle, fun hend => ?_⟩
        rw [hvalno, ← htouch.2]
        exact htouch' hend
      · intro x V
        have hid : identify V1 V2 N.valno = V2 := by
          rw [identify, if_neg (htouch.2.trans_ne hne.symm), htouch.2]
        rw [liveAs_cons, hid, mem_joined hS hN htouch.1.symm]
        tauto
    · rw [if_neg htouch]
      refine ⟨rfl, hvalno, hS, List.Sublist.refl _, hchain, ?_, fun x V => Iff.rfl, le_refl _⟩
      intro M hM
      cases hM
      refine ⟨hnext N rfl, fun hend heq => htouch ⟨hend.symm, ?_⟩⟩
      rw [← heq, hvalno]

theorem mergeTurn_spec (hne : V1 ≠ V2) {s : List (Segment α) × List (Segment α)}
    (h : Merging V1 V2 segments s) :
    (mergeTurn V1 V2 s).Sat
      (fun s' => Merging V1 V2 segments s' ∧ s'.2.length < s.2.length)
      fun segments' => Merging V1 V2 segments (segments', []) := by
  obtain ⟨before, after⟩ := s
  obtain ⟨hlt, hfollows, hmerged, hvalues, hknown⟩ := h
  cases after with
  | nil => exact ⟨hlt, hfollows, hmerged, hvalues, hknown⟩
  | cons S I =>
    rw [mergeTurn]
    by_cases hS : S.valno ≠ V1
    · rw [if_pos hS]
      have hmove : (before ++ [S]) ++ I = before ++ S :: I := List.append_cons before S I ▸ rfl
      refine ⟨⟨?_, ?_, ?_, ?_, ?_⟩, Nat.lt_succ_self _⟩
      · rwa [hmove]
      · rwa [hmove]
      · intro T hT
        rcases List.mem_append.mp hT with hT | hT
        · exact hmerged T hT
        · rwa [List.mem_singleton.mp hT]
      · rwa [hmove]
      · rwa [hmove]
    · rw [if_neg hS]
      have hvalno : identify V1 V2 S.valno = V2 := if_pos (not_ne_iff.mp hS)
      obtain ⟨hchain, hlast, hhead, hafter⟩ := isChain_insert.mp hfollows
      obtain ⟨hltBefore, hltAfter⟩ := List.forall_mem_append.mp hlt
      obtain ⟨hltS, hltI⟩ := List.forall_mem_cons.mp hltAfter
      have hextended := extendPrevious_spec hne hltBefore hltS hchain fun P hP => (hlast P hP).1
      obtain ⟨⟨before', S'⟩, hr⟩ : ∃ r, extendPrevious V2 before S = r := ⟨_, rfl⟩
      rw [hr] at hextended ⊢
      obtain ⟨hlt', hends, hsub, hchain', hlast', hvalues'⟩ := hextended
      have hjoined := mergeLater_spec (S := { S' with valno := V2 }) hne hltI hlt' rfl hafter
        fun N hN => hends.trans_le (hhead N hN).1
      dsimp only at hlt' hends hsub hchain' hlast' hvalues' ⊢
      obtain ⟨⟨S'', I'⟩, hr'⟩ : ∃ r, mergeLater V2 { S' with valno := V2 } I = r := ⟨_, rfl⟩
      rw [hr'] at hjoined ⊢
      obtain ⟨hstarts, hvalno'', hlt'', hsub', hchain'', hnext, hvalues'', hshorter⟩ := hjoined
      have hV2 : identify V1 V2 S''.valno = V2 := by
        rw [hvalno'', identify, if_neg hne.symm]
      obtain ⟨hknownBefore, hknownAfter⟩ := List.forall_mem_append.mp hknown
      refine ⟨⟨?_, ?_, ?_, ?_, ?_⟩, Nat.lt_succ_of_le hshorter⟩
      · rw [← List.append_cons]
        exact List.forall_mem_append.mpr ⟨fun T hT => hltBefore T (hsub.subset hT),
          List.forall_mem_cons.mpr ⟨hlt'', fun T hT => hltI T (hsub'.subset hT)⟩⟩
      · rw [← List.append_cons]
        refine isChain_insert.mpr ⟨hchain', ?_, hnext, hchain''⟩
        intro P hP
        rw [Follows, hstarts, hvalno'']
        exact hlast' P hP
      · intro T hT
        rcases List.mem_append.mp hT with hT | hT
        · exact hmerged T (hsub.subset hT)
        · rw [List.mem_singleton.mp hT, hvalno'']
          exact hne.symm
      · intro x V
        rw [← hvalues x V, ← List.append_cons, liveAs_append, liveAs_append, liveAs_cons,
          liveAs_cons, hV2, hvalno, hvalues'' x V, ← or_assoc, ← or_assoc, hvalues' x V]
      · rw [← List.append_cons]
        refine List.forall_mem_append.mpr ⟨fun T hT => hknownBefore T (hsub.subset hT),
          List.forall_mem_cons.mpr ⟨Or.inl hvalno'', fun T hT => ?_⟩⟩
        exact hknownAfter T (List.mem_cons_of_mem S (hsub'.subset hT))

theorem mergeLoop_spec (hne : V1 ≠ V2) (hlt : ∀ S ∈ segments, S.Start < S.End)
    (hchain : segments.IsChain Follows) :
    ∃ segments', loop (fun s => some (mergeTurn V1 V2 s)) (segments.length + 1) ([], segments) =
        some segments' ∧ Merging V1 V2 segments (segments', []) := by
  have hstart : Merging V1 V2 segments ([], segments) :=
    ⟨hlt, hchain, nofun, fun _ _ => Iff.rfl, fun S hS => Or.inr ⟨S, hS, rfl⟩⟩
  obtain ⟨segments', hrun, hpost⟩ := loop_total (fun s => some (mergeTurn V1 V2 s))
    (fun s => s.2.length) (fun s hs => ⟨_, rfl, mergeTurn_spec hne hs⟩) hstart
  exact ⟨segments', hrun _ (Nat.lt_succ_self _), hpost⟩

/-! ## Values -/

def Numbered (mem : Memory α) (valnos : List ValNo) (V : ValNo) : Prop :=
  valnos[(mem V).id]? = some V

theorem getElem?_rdropWhile {T : Type} {p : T → Bool} {l : List T} {i : Nat} {t : T}
    (h : l[i]? = some t) (hp : p t = false) : (l.rdropWhile p)[i]? = some t := by
  have hsplit : l.rdropWhile p ++ l.rtakeWhile p = l := List.rdropWhile_append_rtakeWhile
  rw [← hsplit, List.getElem?_append] at h
  split at h
  · exact h
  · have hpass := List.mem_rtakeWhile_imp (List.mem_of_getElem? h)
    rw [hp] at hpass
    cases hpass

omit [LinearOrder α] in
theorem markValNoForDeletion_spec (LR : LiveRange α) {V : ValNo}
    (hV : Numbered mem LR.valnos V) :
    (markValNoForDeletion mem LR V).2.segments = LR.segments ∧
    ∀ W ≠ V, (markValNoForDeletion mem LR V).1 W = mem W ∧
      (Numbered mem LR.valnos W → (mem W).isUnused = false →
        Numbered mem (markValNoForDeletion mem LR V).2.valnos W) := by
  unfold markValNoForDeletion
  by_cases hlast : (mem V).id = LR.valnos.length - 1
  · rw [if_pos hlast]
    refine ⟨rfl, fun W hW => ⟨rfl, fun hnumbered hused => ?_⟩⟩
    have hlt : (mem W).id < LR.valnos.length - 1 := by
      obtain ⟨hin, -⟩ := List.getElem?_eq_some_iff.mp hnumbered
      have hdiffer : (mem W).id ≠ (mem V).id := by
        intro hid
        rw [Numbered, hid, hV] at hnumbered
        exact hW (Option.some.inj hnumbered).symm
      omega
    refine getElem?_rdropWhile ?_ hused
    rw [List.getElem?_dropLast, if_pos hlt]
    exact hnumbered
  · rw [if_neg hlast]
    exact ⟨rfl, fun W hW => ⟨Function.update_of_ne hW _ _, fun hnumbered _ => hnumbered⟩⟩

def Used (mem : Memory α) (LR : LiveRange α) : Prop :=
  ∀ S ∈ LR.segments, (mem S.valno).isUnused = false

theorem mergeInto_spec (hne : V1 ≠ V2) (hverified : Verified mem LR)
    (hV1 : Numbered mem LR.valnos V1) (hV2 : Numbered mem LR.valnos V2)
    (hused : ∀ S ∈ LR.segments, S.valno ≠ V1 → (mem S.valno).isUnused = false)
    (husedV2 : (mem V2).isUnused = false) :
    ∃ segments mem' LR', loop (fun s => some (mergeTurn V1 V2 s)) (LR.segments.length + 1)
        ([], LR.segments) = some segments ∧
      markValNoForDeletion mem { LR with segments } V1 = (mem', LR') ∧ Verified mem' LR' ∧
      (∀ x V, (∃ S ∈ LR'.segments, x ∈ Set.Ico S.Start S.End ∧ S.valno = V) ↔
        LiveAs V1 V2 LR.segments x V) ∧
      ∀ W ≠ V1, mem' W = mem W ∧ (Numbered mem LR.valnos W → (mem W).isUnused = false →
        Numbered mem' LR'.valnos W) := by
  obtain ⟨segments, hrun, hmerging⟩ := mergeLoop_spec hne hverified.lt hverified.follows
  obtain ⟨hlt, hfollows, hmerged, hvalues, hknown⟩ := hmerging
  rw [List.append_nil] at hlt hfollows hvalues hknown
  obtain ⟨hsegments, hkept⟩ := markValNoForDeletion_spec { LR with segments } hV1
  obtain ⟨⟨mem', LR'⟩, hr⟩ :
      ∃ r, markValNoForDeletion mem { LR with segments } V1 = r := ⟨_, rfl⟩
  rw [hr] at hsegments hkept
  dsimp only at hsegments hkept
  have hother : ∀ W ≠ V1, mem' W = mem W ∧ (Numbered mem LR.valnos W →
      (mem W).isUnused = false → Numbered mem' LR'.valnos W) := by
    intro W hW
    obtain ⟨hmem, hplace⟩ := hkept W hW
    refine ⟨hmem, fun hnumbered hW => ?_⟩
    rw [Numbered, hmem]
    exact hplace hnumbered hW
  refine ⟨segments, mem', LR', hrun, hr, ⟨?_, ?_, ?_⟩, ?_, hother⟩
  · rwa [hsegments]
  · intro S hS
    rw [hsegments] at hS
    have hS1 := hmerged S hS
    refine (hother _ hS1).2 ?_ ?_
    · rcases hknown S hS with hS2 | ⟨T, hT, hvalno⟩
      · rwa [hS2]
      · rw [← hvalno]
        exact hverified.numbered T hT
    · rcases hknown S hS with hS2 | ⟨T, hT, hvalno⟩
      · rwa [hS2]
      · rw [← hvalno]
        exact hused T hT (hvalno.trans_ne hS1)
  · rwa [hsegments]
  · intro x V
    rw [hsegments, ← hvalues x V]
    refine exists_congr fun S => and_congr_right fun hS => ?_
    rw [identify, if_neg (hmerged S hS)]

/-- What a merge leaves: the value, and the range with both values identified. -/
structure Merged (mem : Memory α) (LR : LiveRange α) (V1 V2 : ValNo) (mem' : Memory α)
    (LR' : LiveRange α) (V : ValNo) : Prop where
  verified : Verified mem' LR'
  value : (V = V1 ∨ V = V2) ∧ Numbered mem' LR'.valnos V ∧ (mem' V).Def = (mem V2).Def
  live : live LR'.segments = live LR.segments
  values : ∀ x W, (∃ S ∈ LR'.segments, x ∈ Set.Ico S.Start S.End ∧ S.valno = W) ↔
    ∃ S ∈ LR.segments, x ∈ Set.Ico S.Start S.End ∧
      (if S.valno = V1 ∨ S.valno = V2 then V else S.valno) = W
  others : ∀ W, W ≠ V1 → W ≠ V2 → mem' W = mem W ∧
    (Numbered mem LR.valnos W → (mem W).isUnused = false → Numbered mem' LR'.valnos W)

theorem identify_eq (W : ValNo) :
    identify V1 V2 W = if W = V1 ∨ W = V2 then V2 else W := by
  unfold identify
  split
  · next h => rw [if_pos (Or.inl h)]
  · next h =>
      split
      · next h' => exact h'.resolve_left h
      · rfl

theorem live_of_values {LR' : LiveRange α} (f : ValNo → ValNo)
    (h : ∀ x W, (∃ S ∈ LR'.segments, x ∈ Set.Ico S.Start S.End ∧ S.valno = W) ↔
      ∃ S ∈ LR.segments, x ∈ Set.Ico S.Start S.End ∧ f S.valno = W) :
    live LR'.segments = live LR.segments := by
  ext x
  constructor
  · rintro ⟨S, hS, hx⟩
    obtain ⟨T, hT, hxT, -⟩ := (h x S.valno).mp ⟨S, hS, hx, rfl⟩
    exact ⟨T, hT, hxT⟩
  · rintro ⟨S, hS, hx⟩
    obtain ⟨T, hT, hxT, -⟩ := (h x (f S.valno)).mpr ⟨S, hS, hx, rfl⟩
    exact ⟨T, hT, hxT⟩

theorem MergeValueNumberInto_spec (hne : V1 ≠ V2) (hverified : Verified mem LR)
    (hV1 : Numbered mem LR.valnos V1) (hV2 : Numbered mem LR.valnos V2) (hused : Used mem LR)
    (husedV2 : (mem V2).isUnused = false) :
    ∃ mem' LR' V, MergeValueNumberInto mem LR V1 V2 = some (mem', LR', V) ∧
      Merged mem LR V1 V2 mem' LR' V := by
  unfold MergeValueNumberInto
  rw [if_neg hne]
  by_cases hswap : (mem V1).id < (mem V2).id
  · rw [if_pos hswap]
    -- The definition moves to the smaller value number; the numbers stay.
    obtain ⟨copied, hcopied⟩ :
        ∃ m, m = Function.update mem V1 { mem V1 with Def := (mem V2).Def } := ⟨_, rfl⟩
    rw [← hcopied]
    have hid : ∀ W, (copied W).id = (mem W).id := by
      intro W
      rw [hcopied]
      by_cases hW : W = V1
      · rw [hW, Function.update_self]
      · rw [Function.update_of_ne hW]
    have hcopy : ∀ W ≠ V1, copied W = mem W := fun W hW => by rw [hcopied, Function.update_of_ne hW]
    have hDef : (copied V1).Def = (mem V2).Def := by rw [hcopied, Function.update_self]
    have hnumbered : ∀ W, Numbered copied LR.valnos W ↔ Numbered mem LR.valnos W := by
      intro W
      rw [Numbered, hid W, Numbered]
    have hsurvivor : (copied V1).isUnused = false := by
      rw [VNInfo.isUnused, hDef]
      exact husedV2
    obtain ⟨segments, mem', LR', hrun, hmark, hverified', hvalues, hothers⟩ :=
      mergeInto_spec hne.symm
        ⟨hverified.lt, fun S hS => (hnumbered _).mpr (hverified.numbered S hS), hverified.follows⟩
        ((hnumbered V2).mpr hV2) ((hnumbered V1).mpr hV1)
        (fun S hS _ => by
          by_cases hS1 : S.valno = V1
          · rw [hS1]
            exact hsurvivor
          · rw [hcopy _ hS1]
            exact hused S hS)
        hsurvivor
    have hsame : ∀ x W, (∃ S ∈ LR'.segments, x ∈ Set.Ico S.Start S.End ∧ S.valno = W) ↔
        ∃ S ∈ LR.segments, x ∈ Set.Ico S.Start S.End ∧
          (if S.valno = V1 ∨ S.valno = V2 then V1 else S.valno) = W := by
      intro x W
      rw [hvalues x W, LiveAs]
      simp only [identify_eq, or_comm]
    refine ⟨mem', LR', V1, ?_, hverified', ⟨Or.inl rfl, ?_, ?_⟩,
      live_of_values (identify V2 V1) hvalues, hsame, ?_⟩
    · simp only [hrun, Option.bind_eq_bind, Option.bind_some, hmark]
    · exact (hothers V1 hne).2 ((hnumbered V1).mpr hV1) hsurvivor
    · rw [(hothers V1 hne).1, hDef]
    · intro W hW1 hW2
      obtain ⟨hmem, hplace⟩ := hothers W hW2
      rw [hcopy W hW1] at hmem hplace
      exact ⟨hmem, fun hW => hplace ((hnumbered W).mpr hW)⟩
  · rw [if_neg hswap]
    obtain ⟨segments, mem', LR', hrun, hmark, hverified', hvalues, hothers⟩ :=
      mergeInto_spec hne hverified hV1 hV2 (fun S hS _ => hused S hS) husedV2
    have hsame : ∀ x W, (∃ S ∈ LR'.segments, x ∈ Set.Ico S.Start S.End ∧ S.valno = W) ↔
        ∃ S ∈ LR.segments, x ∈ Set.Ico S.Start S.End ∧
          (if S.valno = V1 ∨ S.valno = V2 then V2 else S.valno) = W := by
      intro x W
      rw [hvalues x W, LiveAs]
      simp only [identify_eq]
    refine ⟨mem', LR', V2, ?_, hverified', ⟨Or.inr rfl, ?_, ?_⟩,
      live_of_values (identify V1 V2) hvalues, hsame, ?_⟩
    · simp only [hrun, Option.bind_eq_bind, Option.bind_some, hmark]
    · exact (hothers V2 hne.symm).2 hV2 husedV2
    · rw [(hothers V2 hne.symm).1]
    · exact fun W hW1 _ => hothers W hW1

/--
The queries on verified live ranges are those on the sets of indexes where they
are live, and a merge identifies two values, if those of the segments and the
one that stays are used.
-/
theorem queries_exact {A B : LiveRange α} (hA : Verified mem A) (hB : Verified mem B)
    (hneA : A.segments ≠ []) (hneB : B.segments ≠ []) :
    (∃ b, overlapsFrom A B 0 = some b ∧
      (b = true ↔ ∃ x, x ∈ live A.segments ∧ x ∈ live B.segments)) ∧
    (∀ Start End, Start < End → ∃ b, overlaps A Start End = some b ∧
      (b = true ↔ ∃ x, x ∈ live A.segments ∧ Start ≤ x ∧ x < End)) ∧
    (∃ b, covers A B = some b ∧ (b = true ↔ live B.segments ⊆ live A.segments)) ∧
    (∀ Slots : List α, Slots.Pairwise (· ≤ ·) → ∃ b, isLiveAtIndexes A Slots = some b ∧
      (b = true ↔ ∃ Slot ∈ Slots, Slot ∈ live A.segments)) ∧
    ∀ V1 V2, V1 ≠ V2 → Numbered mem A.valnos V1 → Numbered mem A.valnos V2 → Used mem A →
      (mem V2).isUnused = false →
      ∃ mem' A' V, MergeValueNumberInto mem A V1 V2 = some (mem', A', V) ∧
        Merged mem A V1 V2 mem' A' V :=
  ⟨overlapsFrom_begin hA.sorted hB.sorted hneA hneB, fun _ _ => overlaps_spec hA.sorted,
    covers_spec hA.sorted hB.sorted hneA, fun _ => isLiveAtIndexes_spec hA.sorted,
    fun _ _ hne hV1 hV2 hused => MergeValueNumberInto_spec hne hA hV1 hV2 hused⟩

def unusedValues : Memory Nat := fun V => ⟨V, if V = 0 then none else some V⟩

def unusedRange : LiveRange Nat := ⟨[⟨0, 2, 0⟩, ⟨2, 4, 1⟩], [0, 1]⟩

theorem unusedRange_verified : Verified unusedValues unusedRange :=
  ⟨by decide, by decide, by unfold unusedRange Follows; decide⟩

/-- The value that stays is taken for an unused one, and goes as well. -/
theorem unusedRange_merged : Verified unusedValues unusedRange ∧
    Numbered unusedValues unusedRange.valnos 1 ∧ Numbered unusedValues unusedRange.valnos 0 ∧
    MergeValueNumberInto unusedValues unusedRange 1 0 =
      some (unusedValues, ⟨[⟨0, 4, 0⟩], []⟩, 0) ∧
    ¬ Verified unusedValues ⟨[⟨0, 4, 0⟩], []⟩ := by
  refine ⟨unusedRange_verified, rfl, rfl, rfl, ?_⟩
  intro h
  have hnumbered := h.numbered ⟨0, 4, 0⟩ List.mem_cons_self
  cases hnumbered

def touchingRange : LiveRange Nat := ⟨[⟨3, 11, 1⟩], [0, 1]⟩

theorem touchingRange_verified : Verified unusedValues touchingRange :=
  ⟨by decide, by decide, .singleton _⟩

theorem queries_exact_touching :
    ∃ b, overlapsFrom touchingRange unusedRange 0 = some b ∧
      (b = true ↔ ∃ x, x ∈ live touchingRange.segments ∧ x ∈ live unusedRange.segments) :=
  (queries_exact touchingRange_verified unusedRange_verified (List.cons_ne_nil _ _)
    (List.cons_ne_nil _ _)).1

end SmlnjLlvm.LiveInterval
