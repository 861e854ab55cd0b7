import SmlnjLlvm.Scheduling.OrderRuns

/-!
# The subgraph between two units

One search goes forward from the first unit below the index of the second one.
Another goes backward from there over what the first search has marked. Neither
brings the order up to date before.
-/

namespace SmlnjLlvm.TopologicalSort

open Relation Loop Scheduling

/-- The units that a search has marked, in `Nodes` in the order of the marks. -/
structure Pass where
  Found : Bool := false
  Marks : Nat → Bool := fun _ => false
  Nodes : List Nat := []
  WorkList : List Nat

def meet (t : Topo) (Bound : Nat) (admits : Nat → Bool) (p : Pass) (SD : SDep Nat) : Option Pass :=
  let s := SD.SUnit
  if s = BoundaryID then some p
  else do
    guard (s < t.size)
    if t.Node2Index s = Bound then some { p with Found := true }
    else if !p.Marks s && admits s then
      some { p with
        Marks := Function.update p.Marks s true
        Nodes := p.Nodes ++ [s]
        WorkList := s :: p.WorkList }
    else some p

def passTurn (t : Topo) (edges : Nat → List (SDep Nat)) (Bound : Nat) (admits : Nat → Bool)
    (p : Pass) : Option (Turn Pass Pass) :=
  match p.WorkList with
  | [] => some (.exit p)
  | SU :: WorkList => do
      let p ← (edges SU).reverse.foldlM (meet t Bound admits) { p with WorkList }
      some (.next p)

def search (fuel : Nat) (t : Topo) (edges : Nat → List (SDep Nat)) (Bound : Nat)
    (admits : Nat → Bool) (SU : Nat) : Option Pass :=
  loop (passTurn t edges Bound admits) fuel { WorkList := [SU] }

def GetSubGraph (fuel : Nat) (s : DAG Nat) (t : Topo) (StartSU TargetSU : Nat) :
    Option (List Nat × Bool) :=
  let LowerBound := t.Node2Index StartSU
  let UpperBound := t.Node2Index TargetSU
  if UpperBound < LowerBound then some ([], false)
  else do
    let p ← search fuel t (fun SU => (s SU).Succs) UpperBound
      (fun n => decide (t.Node2Index n < UpperBound)) StartSU
    if p.Found then
      let q ← search fuel t (fun SU => (s SU).Preds) LowerBound p.Marks TargetSU
      guard (q.Found = true)
      return (q.Nodes, true)
    else return ([], false)

/-! ## One search -/

section Search

variable {t : Topo} {edges : Nat → List (SDep Nat)} {Bound : Nat} {admits : Nat → Bool}
  {p p' : Pass} {l : List (SDep Nat)} {SU x : Nat}

def Admitted (t : Topo) (Bound : Nat) (admits : Nat → Bool) (x : Nat) : Prop :=
  x ≠ BoundaryID ∧ t.Node2Index x ≠ Bound ∧ admits x = true

def Sought (t : Topo) (Bound x : Nat) : Prop := x ≠ BoundaryID ∧ t.Node2Index x = Bound

def unvisited (t : Topo) (Visited : Nat → Bool) : Nat :=
  ((Finset.range t.size).filter fun a => Visited a = false).card

/-- What the edges of a unit do to a search. -/
structure Met (t : Topo) (Bound : Nat) (admits : Nat → Bool) (l : List (SDep Nat)) (p p' : Pass) :
    Prop where
  found : p'.Found = true ↔ p.Found = true ∨ ∃ D ∈ l, Sought t Bound D.SUnit
  marks : ∀ x, p'.Marks x = true ↔
    p.Marks x = true ∨ Admitted t Bound admits x ∧ ∃ D ∈ l, D.SUnit = x
  pushed : ∃ W, p'.WorkList = W ++ p.WorkList ∧ p'.Nodes = p.Nodes ++ W.reverse ∧ W.Nodup ∧
    (∀ x, x ∈ W ↔ p'.Marks x = true ∧ p.Marks x = false) ∧
      unvisited t p'.Marks + W.length = unvisited t p.Marks

theorem unvisited_update {Marks : Nat → Bool} (hx : x < t.size) (hfresh : Marks x = false) :
    unvisited t (Function.update Marks x true) + 1 = unvisited t Marks := by
  unfold unvisited
  have hmem : x ∈ (Finset.range t.size).filter fun a => Marks a = false :=
    Finset.mem_filter.mpr ⟨Finset.mem_range.mpr hx, hfresh⟩
  have herase : ((Finset.range t.size).filter fun a => Function.update Marks x true a = false) =
      ((Finset.range t.size).filter fun a => Marks a = false).erase x := by
    ext a
    by_cases hax : a = x
    · simp [hax]
    · simp [hax]
  rw [herase, Finset.card_erase_add_one hmem]

theorem Met.refl (p : Pass) : Met t Bound admits [] p p :=
  ⟨by simp, by simp, [], rfl, by simp, List.nodup_nil, by simp, rfl⟩

theorem Met.skip {D : SDep Nat} (hD : ¬ Admitted t Bound admits D.SUnit ∨ p.Marks D.SUnit = true)
    (b : Bool) (hfound : b = true ↔ p.Found = true ∨ Sought t Bound D.SUnit) :
    Met t Bound admits [D] p { p with Found := b } := by
  refine ⟨by simpa using hfound, fun x => ?_, [], rfl, by simp, List.nodup_nil, by simp, rfl⟩
  simp only [List.mem_singleton, exists_eq_left]
  constructor
  · exact Or.inl
  · rintro (hmarked | ⟨hadmitted, rfl⟩)
    · exact hmarked
    · exact hD.resolve_left fun hnot => hnot hadmitted

theorem meet_met (p : Pass) {D : SDep Nat} (hD : D.SUnit = BoundaryID ∨ D.SUnit < t.size) :
    ∃ p', meet t Bound admits p D = some p' ∧ Met t Bound admits [D] p p' := by
  unfold meet
  by_cases hboundary : D.SUnit = BoundaryID
  · rw [if_pos hboundary]
    exact ⟨p, rfl, Met.skip (Or.inl fun h => h.1 hboundary) p.Found
      (iff_self_or.mpr fun h => absurd hboundary h.1)⟩
  have hsize := hD.resolve_left hboundary
  rw [if_neg hboundary, guard, if_pos hsize]
  by_cases hbound : t.Node2Index D.SUnit = Bound
  · refine ⟨_, if_pos hbound, Met.skip (Or.inl fun h => h.2.1 hbound) true ?_⟩
    exact ⟨fun _ => Or.inr ⟨hboundary, hbound⟩, fun _ => rfl⟩
  have hsought : p.Found = true ↔ p.Found = true ∨ Sought t Bound D.SUnit :=
    iff_self_or.mpr fun h => absurd h.2 hbound
  by_cases hmark : (!p.Marks D.SUnit && admits D.SUnit) = true
  · have hmark' := hmark
    rw [Bool.and_eq_true, Bool.not_eq_true'] at hmark'
    refine ⟨_, (if_neg hbound).trans (if_pos hmark), ?_, fun x => ?_, [D.SUnit], rfl, rfl,
      List.nodup_singleton _, fun x => ?_, ?_⟩
    · simpa using hsought
    · by_cases hx : x = D.SUnit
      · subst hx
        simp [Admitted, hboundary, hbound, hmark'.2]
      · simp [hx, Ne.symm hx]
    · by_cases hx : x = D.SUnit
      · subst hx
        simp [hmark'.1]
      · simp [hx]
    · exact unvisited_update hsize hmark'.1
  · refine ⟨p, (if_neg hbound).trans (if_neg hmark), Met.skip ?_ p.Found hsought⟩
    rw [Bool.and_eq_true, Bool.not_eq_true', not_and] at hmark
    by_cases hmarked : p.Marks D.SUnit = true
    · exact Or.inr hmarked
    · exact Or.inl fun h => hmark (Bool.eq_false_iff.mpr hmarked) h.2.2

theorem Met.append {l l' : List (SDep Nat)} {q : Pass} (h : Met t Bound admits l p p')
    (h' : Met t Bound admits l' p' q) : Met t Bound admits (l ++ l') p q := by
  obtain ⟨W, hW, hnodes, hnodup, hmem, hcard⟩ := h.pushed
  obtain ⟨W', hW', hnodes', hnodup', hmem', hcard'⟩ := h'.pushed
  have hgrow {x : Nat} (hx : p'.Marks x = true) : q.Marks x = true := (h'.marks x).mpr (Or.inl hx)
  have hold {x : Nat} (hx : p'.Marks x = false) : p.Marks x = false := by
    rw [Bool.eq_false_iff] at hx ⊢
    exact fun hmarked => hx ((h.marks x).mpr (Or.inl hmarked))
  refine ⟨?_, fun x => ?_, W' ++ W, ?_, ?_, ?_, fun x => ?_, ?_⟩
  · simp only [h'.found, h.found, List.mem_append, or_and_right, exists_or, or_assoc]
  · simp only [h'.marks, h.marks, List.mem_append, or_and_right, exists_or, and_or_left, or_assoc]
  · rw [hW', hW, List.append_assoc]
  · rw [hnodes', hnodes, List.reverse_append, List.append_assoc]
  · refine List.Nodup.append hnodup' hnodup fun x hx hx' => ?_
    have hmarked := ((hmem x).mp hx').1
    rw [((hmem' x).mp hx).2] at hmarked
    exact Bool.false_ne_true hmarked
  · rw [List.mem_append, hmem', hmem]
    constructor
    · rintro (⟨hq, hx⟩ | ⟨hx, hp⟩)
      · exact ⟨hq, hold hx⟩
      · exact ⟨hgrow hx, hp⟩
    · rintro ⟨hq, hp⟩
      by_cases hx : p'.Marks x = true
      · exact Or.inr ⟨hx, hp⟩
      · exact Or.inl ⟨hq, Bool.eq_false_iff.mpr hx⟩
  · rw [List.length_append]
    omega

theorem foldlM_met (p : Pass) (hl : ∀ D ∈ l, D.SUnit = BoundaryID ∨ D.SUnit < t.size) :
    ∃ p', l.foldlM (meet t Bound admits) p = some p' ∧ Met t Bound admits l p p' := by
  induction l generalizing p with
  | nil => exact ⟨p, rfl, Met.refl p⟩
  | cons D l ih =>
    obtain ⟨p₁, hfirst, h₁⟩ := @meet_met t Bound admits p D
      (hl D List.mem_cons_self)
    obtain ⟨p', hrest, h'⟩ := ih p₁ fun E hE => hl E (List.mem_cons_of_mem D hE)
    refine ⟨p', ?_, h₁.append h'⟩
    rw [List.foldlM_cons, hfirst]
    exact hrest

def Goes (t : Topo) (edges : Nat → List (SDep Nat)) (Bound : Nat) (admits : Nat → Bool)
    (x y : Nat) : Prop :=
  Admitted t Bound admits y ∧ ∃ D ∈ edges x, D.SUnit = y

/-- Between turns, the edges of what was reached have been met, or wait. -/
structure Passing (t : Topo) (edges : Nat → List (SDep Nat)) (Bound : Nat) (admits : Nat → Bool)
    (SU : Nat) (p : Pass) : Prop where
  marks : ∀ x, p.Marks x = true → TransGen (Goes t edges Bound admits) SU x
  waits : ∀ x ∈ p.WorkList, x = SU ∨ p.Marks x = true
  met : ∀ x, x = SU ∨ p.Marks x = true → x ∈ p.WorkList ∨ ∀ D ∈ edges x,
    (Sought t Bound D.SUnit → p.Found = true) ∧
      (Admitted t Bound admits D.SUnit → p.Marks D.SUnit = true)
  found : p.Found = true → ∃ x, ReflTransGen (Goes t edges Bound admits) SU x ∧
    ∃ D ∈ edges x, Sought t Bound D.SUnit
  nodup : p.Nodes.Nodup
  nodes : ∀ x, x ∈ p.Nodes ↔ p.Marks x = true

/-- What a search has found out when it ends. -/
structure Passed (t : Topo) (edges : Nat → List (SDep Nat)) (Bound : Nat) (admits : Nat → Bool)
    (SU : Nat) (p : Pass) : Prop where
  marks : ∀ x, p.Marks x = true ↔ TransGen (Goes t edges Bound admits) SU x
  found : p.Found = true ↔ ∃ x, ReflTransGen (Goes t edges Bound admits) SU x ∧
    ∃ D ∈ edges x, Sought t Bound D.SUnit
  nodup : p.Nodes.Nodup
  nodes : ∀ x, x ∈ p.Nodes ↔ p.Marks x = true

theorem Passing.passed (h : Passing t edges Bound admits SU p) (hp : p.WorkList = []) :
    Passed t edges Bound admits SU p := by
  have hmet (x : Nat) (hx : x = SU ∨ p.Marks x = true) :=
    (h.met x hx).resolve_left (hp ▸ List.not_mem_nil)
  have hreached : ∀ x, ReflTransGen (Goes t edges Bound admits) SU x →
      x = SU ∨ p.Marks x = true := by
    intro x hx
    induction hx with
    | refl => exact Or.inl rfl
    | tail _ hgoes ih =>
      obtain ⟨hadmitted, D, hD, rfl⟩ := hgoes
      exact Or.inr ((hmet _ ih D hD).2 hadmitted)
  refine ⟨fun x => ⟨h.marks x, fun hx => ?_⟩,
    ⟨h.found, fun ⟨x, hx, D, hD, hsought⟩ => (hmet x (hreached x hx) D hD).1 hsought⟩,
    h.nodup, h.nodes⟩
  obtain ⟨y, hy, hadmitted, D, hD, rfl⟩ := TransGen.tail'_iff.mp hx
  exact (hmet y (hreached y hy) D hD).2 hadmitted

theorem Passing.turn (hedges : ∀ x, ∀ D ∈ edges x, D.SUnit = BoundaryID ∨ D.SUnit < t.size)
    (h : Passing t edges Bound admits SU p) {n : Nat} {WorkList : List Nat}
    (hp : p.WorkList = n :: WorkList) :
    ∃ p', passTurn t edges Bound admits p = some (.next p') ∧ Passing t edges Bound admits SU p' ∧
      unvisited t p'.Marks + p'.WorkList.length < unvisited t p.Marks + p.WorkList.length := by
  obtain ⟨p', hfold, hmet⟩ := @foldlM_met t Bound admits (edges n).reverse
    { p with WorkList } fun D hD => hedges n D (List.mem_reverse.mp hD)
  obtain ⟨W, hW, hnodes, hnodup, hmem, hcard⟩ := hmet.pushed
  dsimp only at hW hnodes hmem hcard
  have hreach : ReflTransGen (Goes t edges Bound admits) SU n := by
    rcases h.waits n (hp ▸ List.mem_cons_self) with rfl | hn
    · exact ReflTransGen.refl
    · exact (h.marks n hn).to_reflTransGen
  have hgrow {x : Nat} (hx : p.Marks x = true) : p'.Marks x = true := (hmet.marks x).mpr (Or.inl hx)
  have hkeep : p.Found = true → p'.Found = true := fun hf => hmet.found.mpr (Or.inl hf)
  refine ⟨p', ?_, ⟨fun x hx => ?_, fun x hx => ?_, fun x hx => ?_, fun hf => ?_, ?_, fun x => ?_⟩, ?_⟩
  · unfold passTurn
    rw [hp]
    dsimp only [Option.bind_eq_bind]
    rw [hfold]
    rfl
  · rcases (hmet.marks x).mp hx with hold | ⟨hadmitted, D, hD, hend⟩
    · exact h.marks x hold
    · exact TransGen.tail' hreach ⟨hadmitted, D, List.mem_reverse.mp hD, hend⟩
  · rw [hW] at hx
    rcases List.mem_append.mp hx with hx | hx
    · exact Or.inr ((hmem x).mp hx).1
    · exact (h.waits x (hp ▸ List.mem_cons_of_mem n hx)).imp_right hgrow
  · by_cases hxn : x = n
    · subst hxn
      refine Or.inr fun D hD => ⟨fun hsought => ?_, fun hadmitted => ?_⟩
      · exact hmet.found.mpr (Or.inr ⟨D, List.mem_reverse.mpr hD, hsought⟩)
      · exact (hmet.marks _).mpr (Or.inr ⟨hadmitted, D, List.mem_reverse.mpr hD, rfl⟩)
    · by_cases hold : x = SU ∨ p.Marks x = true
      · rcases h.met x hold with hwait | hdone
        · rw [hp] at hwait
          rw [hW]
          exact Or.inl (List.mem_append_right W ((List.mem_cons.mp hwait).resolve_left hxn))
        · exact Or.inr fun D hD => ⟨fun hs => hkeep ((hdone D hD).1 hs),
            fun ha => hgrow ((hdone D hD).2 ha)⟩
      · rw [not_or] at hold
        rw [hW]
        exact Or.inl (List.mem_append_left _
          ((hmem x).mpr ⟨hx.resolve_left hold.1, Bool.eq_false_iff.mpr hold.2⟩))
  · rcases hmet.found.mp hf with hold | ⟨D, hD, hsought⟩
    · exact h.found hold
    · exact ⟨n, hreach, D, List.mem_reverse.mp hD, hsought⟩
  · rw [hnodes]
    refine List.Nodup.append h.nodup (List.nodup_reverse.mpr hnodup) fun x hx hx' => ?_
    have hfresh := ((hmem x).mp (List.mem_reverse.mp hx')).2
    rw [(h.nodes x).mp hx] at hfresh
    exact Bool.false_ne_true hfresh.symm
  · rw [hnodes, List.mem_append, List.mem_reverse, h.nodes, hmem]
    constructor
    · rintro (hold | ⟨hnew, -⟩)
      · exact hgrow hold
      · exact hnew
    · intro hx
      by_cases hold : p.Marks x = true
      · exact Or.inl hold
      · exact Or.inr ⟨hx, Bool.eq_false_iff.mpr hold⟩
  · rw [hW, hp, List.length_append, List.length_cons]
    omega

theorem search_passed (hedges : ∀ x, ∀ D ∈ edges x, D.SUnit = BoundaryID ∨ D.SUnit < t.size)
    (SU : Nat) : ∃ p enough, (∀ fuel, enough < fuel →
      search fuel t edges Bound admits SU = some p) ∧ Passed t edges Bound admits SU p := by
  have hstart : Passing t edges Bound admits SU { WorkList := [SU] } := by
    refine ⟨by simp, by simp, fun x hx => Or.inl ?_, by simp, List.nodup_nil, by simp⟩
    simpa using hx
  have hturn : ∀ p, Passing t edges Bound admits SU p →
      ∃ r, passTurn t edges Bound admits p = some r ∧ r.Sat
        (fun p' => Passing t edges Bound admits SU p' ∧
          unvisited t p'.Marks + p'.WorkList.length < unvisited t p.Marks + p.WorkList.length)
        (Passed t edges Bound admits SU) := by
    intro p hp
    cases hW : p.WorkList with
    | nil =>
      refine ⟨.exit p, ?_, hp.passed hW⟩
      unfold passTurn
      rw [hW]
    | cons n WorkList =>
      obtain ⟨p', hrun, hp', hless⟩ := hp.turn hedges hW
      rw [← hW]
      exact ⟨.next p', hrun, hp', hless⟩
  obtain ⟨p, hrun, hpassed⟩ := loop_total (passTurn t edges Bound admits)
    (fun p => unvisited t p.Marks + p.WorkList.length) hturn hstart
  exact ⟨p, _, hrun, hpassed⟩

end Search

/-! ## Both searches -/

section Both

variable {s : DAG Nat} {t : Topo} {StartSU TargetSU x y : Nat}

def Reach (s : DAG Nat) (t : Topo) (x y : Nat) : Prop := TransGen (Link s t.size) x y

def Below (s : DAG Nat) (t : Topo) (TargetSU x y : Nat) : Prop :=
  Link s t.size x y ∧ t.Node2Index y < t.Node2Index TargetSU

def LowTo (s : DAG Nat) (t : Topo) (TargetSU x : Nat) : Prop :=
  ∃ y, ReflTransGen (Below s t TargetSU) x y ∧ Link s t.size y TargetSU

theorem goes_succs_iff (hs : Formed s t.size t.ExitSU) :
    Goes t (fun SU => (s SU).Succs) (t.Node2Index TargetSU)
      (fun n => decide (t.Node2Index n < t.Node2Index TargetSU)) x y ↔ Below s t TargetSU x y := by
  constructor
  · rintro ⟨⟨hboundary, -, hlt⟩, hedge⟩
    obtain ⟨hx, hy⟩ := hs.ends x y hedge
    exact ⟨⟨hedge, hx, hy.resolve_right fun h => hboundary (hs.exit y h)⟩, of_decide_eq_true hlt⟩
  · rintro ⟨⟨hedge, hx, hy⟩, hlt⟩
    have hsize := hs.size_le
    exact ⟨⟨by omega, by omega, decide_eq_true hlt⟩, hedge⟩

theorem edge_iff_preds (hs : Formed s t.size t.ExitSU) :
    (∃ D ∈ (s y).Preds, D.SUnit = x) ↔ Edge s x y := by
  constructor
  · rintro ⟨D, hD, rfl⟩
    exact hs.mirrored.linked .depth y D hD
  · rintro ⟨D, hD, rfl⟩
    exact hs.mirrored.linked .height x D hD

theorem Reach.index_ne (hs : Formed s t.size t.ExitSU) (ht : Inverse t) (h : Reach s t x y) :
    t.Node2Index y ≠ t.Node2Index x := by
  obtain ⟨z, -, -, -, hy⟩ := TransGen.tail'_iff.mp h
  obtain ⟨z', ⟨-, hx, -⟩, -⟩ := TransGen.head'_iff.mp h
  intro heq
  obtain rfl := ht.injective hy hx heq
  exact hs.acyclic y h

theorem below_reach (h : TransGen (Below s t TargetSU) x y) : Reach s t x y :=
  TransGen.mono (fun _ _ hbelow => And.left hbelow) x y h

theorem LowTo.reach (h : LowTo s t TargetSU x) : Reach s t x TargetSU := by
  obtain ⟨y, hxy, hlink⟩ := h
  exact TransGen.tail' (ReflTransGen.mono (fun _ _ hbelow => And.left hbelow) x y hxy) hlink

theorem found_forward_iff (hs : Formed s t.size t.ExitSU) (ht : Inverse t)
    (htarget : TargetSU < t.size) :
    (∃ x, ReflTransGen (Goes t (fun SU => (s SU).Succs) (t.Node2Index TargetSU)
        (fun n => decide (t.Node2Index n < t.Node2Index TargetSU))) StartSU x ∧
      ∃ D ∈ (s x).Succs, Sought t (t.Node2Index TargetSU) D.SUnit) ↔
        LowTo s t TargetSU StartSU := by
  have hgoes : Goes t (fun SU => (s SU).Succs) (t.Node2Index TargetSU)
      (fun n => decide (t.Node2Index n < t.Node2Index TargetSU)) = Below s t TargetSU := by
    ext x y
    exact goes_succs_iff hs
  rw [hgoes]
  constructor
  · rintro ⟨x, hx, D, hD, hboundary, hindex⟩
    obtain ⟨hxlt, hylt⟩ := hs.ends x D.SUnit ⟨D, hD, rfl⟩
    have hlt := hylt.resolve_right fun h => hboundary (hs.exit _ h)
    have heq := ht.injective hlt htarget hindex
    exact ⟨x, hx, ⟨D, hD, heq⟩, hxlt, htarget⟩
  · rintro ⟨x, hx, ⟨D, hD, rfl⟩, -, -⟩
    have hsize := hs.size_le
    exact ⟨x, hx, D, hD, by omega, rfl⟩

theorem goes_preds_iff (hs : Formed s t.size t.ExitSU) (ht : Inverse t) {Marks : Nat → Bool}
    (hmarks : ∀ x, Marks x = true ↔ TransGen (Below s t TargetSU) StartSU x) :
    Goes t (fun SU => (s SU).Preds) (t.Node2Index StartSU) Marks y x ↔
      Edge s x y ∧ TransGen (Below s t TargetSU) StartSU x := by
  have hsize := hs.size_le
  constructor
  · rintro ⟨⟨-, -, hmarked⟩, hedge⟩
    exact ⟨(edge_iff_preds hs).mp hedge, (hmarks x).mp hmarked⟩
  · rintro ⟨hedge, hx⟩
    have hlt := (hs.ends x y hedge).1
    exact ⟨⟨by omega, (below_reach hx).index_ne hs ht, (hmarks x).mpr hx⟩,
      (edge_iff_preds hs).mpr hedge⟩

theorem back_iff (hs : Formed s t.size t.ExitSU) (ht : Inverse t) (htarget : TargetSU < t.size)
    {Marks : Nat → Bool} (hmarks : ∀ x, Marks x = true ↔ TransGen (Below s t TargetSU) StartSU x) :
    TransGen (Goes t (fun SU => (s SU).Preds) (t.Node2Index StartSU) Marks) TargetSU x ↔
      TransGen (Below s t TargetSU) StartSU x ∧ LowTo s t TargetSU x := by
  have hlast {x : Nat} (hedge : Edge s x TargetSU) : LowTo s t TargetSU x :=
    ⟨x, ReflTransGen.refl, hedge, (hs.ends x _ hedge).1, htarget⟩
  have hbelow {x : Nat} (hx : TransGen (Below s t TargetSU) StartSU x) :
      x < t.size ∧ t.Node2Index x < t.Node2Index TargetSU := by
    obtain ⟨y, -, hlink, hlt⟩ := TransGen.tail'_iff.mp hx
    exact ⟨hlink.2.2, hlt⟩
  constructor
  · intro h
    induction h with
    | single hgoes =>
      obtain ⟨hedge, hx⟩ := (goes_preds_iff hs ht hmarks).mp hgoes
      exact ⟨hx, hlast hedge⟩
    | tail _ hgoes ih =>
      obtain ⟨hedge, hx⟩ := (goes_preds_iff hs ht hmarks).mp hgoes
      obtain ⟨hy, z, hyz, hlink⟩ := ih
      obtain ⟨hysize, hyless⟩ := hbelow hy
      exact ⟨hx, z, ReflTransGen.head ⟨⟨hedge, (hs.ends _ _ hedge).1, hysize⟩, hyless⟩ hyz, hlink⟩
  · rintro ⟨hx, z, hxz, hlink⟩
    induction hxz using ReflTransGen.head_induction_on with
    | refl => exact TransGen.single ((goes_preds_iff hs ht hmarks).mpr ⟨hlink.1, hx⟩)
    | head hstep _ ih =>
      exact (ih (hx.tail hstep)).tail ((goes_preds_iff hs ht hmarks).mpr ⟨hstep.1.1, hx⟩)

theorem found_back (hs : Formed s t.size t.ExitSU) (ht : Inverse t) (hstart : StartSU < t.size)
    (htarget : TargetSU < t.size) {Marks : Nat → Bool}
    (hmarks : ∀ x, Marks x = true ↔ TransGen (Below s t TargetSU) StartSU x)
    (h : LowTo s t TargetSU StartSU) :
    ∃ x, ReflTransGen (Goes t (fun SU => (s SU).Preds) (t.Node2Index StartSU) Marks) TargetSU x ∧
      ∃ D ∈ (s x).Preds, Sought t (t.Node2Index StartSU) D.SUnit := by
  have hsize := hs.size_le
  have hfound {x : Nat} (hedge : Edge s StartSU x) :
      ∃ D ∈ (s x).Preds, Sought t (t.Node2Index StartSU) D.SUnit := by
    obtain ⟨D, hD, heq⟩ := (edge_iff_preds hs).mpr hedge
    exact ⟨D, hD, by omega, heq ▸ rfl⟩
  obtain ⟨z, hz, hlink⟩ := h
  rcases ReflTransGen.cases_head hz with rfl | ⟨y, hstep, hyz⟩
  · exact ⟨TargetSU, ReflTransGen.refl, hfound hlink.1⟩
  · have hback := (back_iff hs ht htarget hmarks).mpr ⟨TransGen.single hstep, z, hyz, hlink⟩
    exact ⟨y, hback.to_reflTransGen, hfound hstep.1.1⟩

theorem GetSubGraph_run (hs : Formed s t.size t.ExitSU) (ht : Inverse t)
    (hstart : StartSU < t.size) (htarget : TargetSU < t.size) (hne : StartSU ≠ TargetSU) :
    ∃ r enough, (∀ fuel, enough < fuel → GetSubGraph fuel s t StartSU TargetSU = some r) ∧
      (r.2 = true ↔
        t.Node2Index StartSU < t.Node2Index TargetSU ∧ LowTo s t TargetSU StartSU) ∧
      r.1.Nodup ∧ (r.2 = true → ∀ x, x ∈ r.1 ↔
        TransGen (Below s t TargetSU) StartSU x ∧ LowTo s t TargetSU x) ∧
      (r.2 = false → r.1 = []) := by
  have hindex : t.Node2Index StartSU ≠ t.Node2Index TargetSU :=
    fun heq => hne (ht.injective hstart htarget heq)
  by_cases hless : t.Node2Index TargetSU < t.Node2Index StartSU
  · refine ⟨([], false), 0, fun fuel _ => if_pos hless, ?_, List.nodup_nil, by simp, by simp⟩
    simp only [Bool.false_eq_true, false_iff, not_and]
    omega
  have hsuccs : ∀ x, ∀ D ∈ (s x).Succs, D.SUnit = BoundaryID ∨ D.SUnit < t.size := by
    intro x D hD
    exact (hs.ends x D.SUnit ⟨D, hD, rfl⟩).2.symm.imp_left (hs.exit _)
  have hpreds : ∀ x, ∀ D ∈ (s x).Preds, D.SUnit = BoundaryID ∨ D.SUnit < t.size := by
    intro x D hD
    exact Or.inr (hs.ends D.SUnit x ((edge_iff_preds hs).mp ⟨D, hD, rfl⟩)).1
  obtain ⟨p, enough, hforward, hp⟩ := @search_passed t (fun SU => (s SU).Succs)
    (t.Node2Index TargetSU) (fun n => decide (t.Node2Index n < t.Node2Index TargetSU)) hsuccs StartSU
  obtain ⟨q, enough', hbackward, hq⟩ := @search_passed t (fun SU => (s SU).Preds)
    (t.Node2Index StartSU) p.Marks hpreds TargetSU
  have hfound := hp.found.trans (found_forward_iff hs ht htarget)
  have hmarks (x : Nat) : p.Marks x = true ↔ TransGen (Below s t TargetSU) StartSU x := by
    rw [hp.marks]
    have hgoes : Goes t (fun SU => (s SU).Succs) (t.Node2Index TargetSU)
        (fun n => decide (t.Node2Index n < t.Node2Index TargetSU)) = Below s t TargetSU := by
      ext x y
      exact goes_succs_iff hs
    rw [hgoes]
  refine ⟨if p.Found then (q.Nodes, true) else ([], false), max enough enough',
    fun fuel hfuel => ?_, ?_⟩
  · unfold GetSubGraph
    rw [if_neg hless, hforward fuel (by omega)]
    dsimp only [Option.bind_eq_bind, Option.bind_some, Option.pure_def]
    rw [hbackward fuel (by omega)]
    dsimp only [Option.bind_some]
    by_cases hf : p.Found = true
    · have hback : q.Found = true :=
        hq.found.mpr (found_back hs ht hstart htarget hmarks (hfound.mp hf))
      rw [if_pos hf, if_pos hf, guard, if_pos hback]
      rfl
    · rw [if_neg hf, if_neg hf]
  · by_cases hf : p.Found = true
    · rw [if_pos hf]
      refine ⟨⟨fun _ => ⟨by omega, hfound.mp hf⟩, fun _ => rfl⟩, hq.nodup, fun _ x => ?_, by simp⟩
      rw [hq.nodes, hq.marks, back_iff hs ht htarget hmarks]
    · rw [if_neg hf]
      refine ⟨⟨by simp, fun h => absurd (hfound.mpr h.2) hf⟩, List.nodup_nil, by simp, by simp⟩

/-- The target is reached, and the nodes are those on the paths to it; or there is no node. -/
structure IsSubGraph (s : DAG Nat) (t : Topo) (StartSU TargetSU : Nat) (r : List Nat × Bool) :
    Prop where
  success : r.2 = true ↔ Reach s t StartSU TargetSU
  nodup : r.1.Nodup
  nodes : r.2 = true → ∀ x, x ∈ r.1 ↔
    x ≠ StartSU ∧ x ≠ TargetSU ∧ Reach s t StartSU x ∧ Reach s t x TargetSU
  failed : r.2 = false → r.1 = []

def InOrder (s : DAG Nat) (t : Topo) (StartSU TargetSU : Nat) : Prop :=
  Reach s t StartSU TargetSU → t.Node2Index StartSU < t.Node2Index TargetSU ∧
    ∀ x, Reach s t StartSU x → Reach s t x TargetSU → t.Node2Index x < t.Node2Index TargetSU

theorem Sorted.index_lt (h : Sorted s t) (hreach : Reach s t x y) :
    t.Node2Index x < t.Node2Index y := by
  induction hreach with
  | single hlink => exact h _ _ hlink.1 hlink.2.2
  | tail _ hlink ih => exact Nat.lt_trans ih (h _ _ hlink.1 hlink.2.2)

theorem Sorted.inOrder (h : Sorted s t) : InOrder s t StartSU TargetSU :=
  fun hreach => ⟨h.index_lt hreach, fun _ _ hx => h.index_lt hx⟩

theorem lowTo_of_reach (hbelow : ∀ x, Reach s t StartSU x → Reach s t x TargetSU →
      t.Node2Index x < t.Node2Index TargetSU) (hx : x = StartSU ∨ Reach s t StartSU x)
    (h : Reach s t x TargetSU) : LowTo s t TargetSU x := by
  induction h using TransGen.head_induction_on with
  | single hlink => exact ⟨_, ReflTransGen.refl, hlink⟩
  | @head x y hlink hrest ih =>
    have hy : Reach s t StartSU y := by
      rcases hx with rfl | hx
      · exact TransGen.single hlink
      · exact hx.tail hlink
    obtain ⟨z, hz, hlast⟩ := ih (Or.inr hy)
    exact ⟨z, ReflTransGen.head ⟨hlink, hbelow _ hy hrest⟩ hz, hlast⟩

theorem below_of_reach (hbelow : ∀ x, Reach s t StartSU x → Reach s t x TargetSU →
      t.Node2Index x < t.Node2Index TargetSU) (hx : Reach s t StartSU x)
    (h : Reach s t x TargetSU) : TransGen (Below s t TargetSU) StartSU x := by
  induction hx with
  | single hlink => exact TransGen.single ⟨hlink, hbelow _ (TransGen.single hlink) h⟩
  | tail hy hlink ih =>
    exact (ih (TransGen.head hlink h)).tail ⟨hlink, hbelow _ (TransGen.tail hy hlink) h⟩

end Both

/--
The subgraph is right if and only if the paths from the start to the target are
in order, also where the order is out of date.
-/
theorem GetSubGraph_iff {ExitSU : Option Nat} {s : DAG Nat} {DAGSize StartSU TargetSU : Nat}
    {t : Topo} (h : Reachable ExitSU s DAGSize t) (hsize : t.size = DAGSize)
    (hstart : StartSU < DAGSize) (htarget : TargetSU < DAGSize) (hne : StartSU ≠ TargetSU) :
    ((∃ r enough, (∀ fuel, enough < fuel → GetSubGraph fuel s t StartSU TargetSU = some r) ∧
      IsSubGraph s t StartSU TargetSU r) ↔ InOrder s t StartSU TargetSU) ∧
    (Sorted s t → InOrder s t StartSU TargetSU) := by
  subst hsize
  obtain ⟨hs, hexit, ht, -⟩ := h.consistent
  rw [← hexit] at hs
  obtain ⟨r, enough, hrun, hsuccess, hnodup, hnodes, hfailed⟩ :=
    GetSubGraph_run hs ht hstart htarget hne
  refine ⟨⟨?_, fun horder => ⟨r, enough, hrun, ?_, hnodup, fun hr x => ?_, hfailed⟩⟩,
    Sorted.inOrder⟩
  · rintro ⟨r', enough', hrun', hgraph⟩ hreach
    obtain rfl : r = r' := Option.some.inj ((hrun (max enough enough' + 1) (by omega)).symm.trans
      (hrun' (max enough enough' + 1) (by omega)))
    have hr := hgraph.success.mpr hreach
    refine ⟨(hsuccess.mp hr).1, fun x hx hx' => ?_⟩
    have hstartx : x ≠ StartSU := by
      rintro rfl
      exact hs.acyclic x hx
    have htargetx : x ≠ TargetSU := by
      rintro rfl
      exact hs.acyclic x hx'
    have hmem := (hgraph.nodes hr x).mpr ⟨hstartx, htargetx, hx, hx'⟩
    obtain ⟨z, -, -, hless⟩ := TransGen.tail'_iff.mp ((hnodes hr x).mp hmem).1
    exact hless
  · rw [hsuccess]
    constructor
    · exact fun hlow => hlow.2.reach
    · exact fun hreach => ⟨(horder hreach).1, lowTo_of_reach (horder hreach).2 (Or.inl rfl) hreach⟩
  · have hreach : Reach s t StartSU TargetSU := (hsuccess.mp hr).2.reach
    have hbelow := (horder hreach).2
    rw [hnodes hr]
    constructor
    · rintro ⟨hx, hlow⟩
      have hx' := below_reach hx
      refine ⟨?_, ?_, hx', hlow.reach⟩
      · rintro rfl
        exact hs.acyclic x hx'
      · rintro rfl
        exact hs.acyclic x hlow.reach
    · rintro ⟨-, -, hx, hx'⟩
      exact ⟨below_of_reach hbelow hx hx', lowTo_of_reach hbelow (Or.inr hx) hx'⟩

def backEdge : DAG Nat := insertEdge (fun _ => {}) 0 ⟨1, .Data, 0, 0⟩

theorem formed_noEdge : Formed (fun _ => {}) 2 none where
  mirrored := fun _ _ _ _ _ => rfl
  acyclic := fun x h => by
    obtain ⟨y, ⟨⟨D, hD, -⟩, -⟩, -⟩ := TransGen.head'_iff.mp h
    exact absurd hD List.not_mem_nil
  size_le := by decide
  exit := by simp
  ends := fun x y ⟨D, hD, _⟩ => absurd hD List.not_mem_nil

theorem edge_backEdge {x y : Nat} : Edge backEdge x y ↔ x = 1 ∧ y = 0 := by
  have hsuccs : (backEdge x).Succs = if x = 1 then [⟨0, .Data, 0, 0⟩] else [] := by
    unfold backEdge insertEdge DAG.modify
    by_cases hone : x = 1
    · subst hone
      rfl
    · by_cases hzero : x = 0
      · subst hzero
        rfl
      · simp [hone, hzero]
  unfold Edge
  rw [hsuccs]
  by_cases hone : x = 1
  · simp [hone, eq_comm]
  · simp [hone]

theorem formed_backEdge : Formed backEdge 2 none where
  mirrored := insertEdge_mirrored formed_noEdge.mirrored 0 _
  acyclic := fun x h => by
    have hless : ∀ y, TransGen (Link backEdge 2) x y → y < x := by
      intro y hy
      induction hy with
      | single hlink =>
        obtain ⟨rfl, rfl⟩ := edge_backEdge.mp hlink.1
        decide
      | tail _ hlink ih =>
        obtain ⟨rfl, rfl⟩ := edge_backEdge.mp hlink.1
        omega
    exact Nat.lt_irrefl x (hless x h)
  size_le := by decide
  exit := by simp
  ends := fun x y h => by
    obtain ⟨rfl, rfl⟩ := edge_backEdge.mp h
    exact ⟨by decide, Or.inl (by decide)⟩

/-- The order of the units is computed with the edge, and the subgraph is found. -/
theorem GetSubGraph_iff_backEdge : ∃ t r enough, Reachable none backEdge 2 t ∧
    (∀ fuel, enough < fuel → GetSubGraph fuel backEdge t 1 0 = some r) ∧
      IsSubGraph backEdge t 1 0 r := by
  obtain ⟨t, enough, hrun, -, hsorted, hsize, -⟩ :=
    @InitDAGTopologicalSorting_ordered backEdge 2 { ExitSU := none } formed_backEdge
  have h : Reachable none backEdge 2 t :=
    Reachable.init (Reachable.start formed_backEdge) (hrun (enough + 1) (Nat.lt_succ_self _))
  obtain ⟨hiff, horder⟩ := @GetSubGraph_iff none backEdge 2 1 0 t h hsize (by decide) (by decide)
    (by decide)
  obtain ⟨r, enough', hsearch, hgraph⟩ := hiff.mpr (horder hsorted)
  exact ⟨t, r, enough', h, hsearch, hgraph⟩

/-- While the edge is queued, its source is behind its target in the order. -/
theorem GetSubGraph_queued : ∃ t, Reachable none backEdge 2 t ∧ t.size = 2 ∧
    t.Updates = [(0, 1)] ∧ Reach backEdge t 1 0 ∧
      ∀ fuel, GetSubGraph fuel backEdge t 1 0 = some ([], false) := by
  obtain ⟨t, ht⟩ : ∃ t, InitDAGTopologicalSorting 4 2 (fun _ => {}) { ExitSU := none } = some t :=
    ⟨_, rfl⟩
  have hreach := ((Reachable.start formed_noEdge).init ht).graph formed_backEdge
  have hfacts : (InitDAGTopologicalSorting 4 2 (fun _ => {}) { ExitSU := none }).map (fun t =>
      (t.size, t.Dirty, t.Updates, t.Node2Index 0, t.Node2Index 1)) = some (2, false, [], 0, 1) := rfl
  rw [ht] at hfacts
  simp only [Option.map_some, Option.some.injEq, Prod.mk.injEq] at hfacts
  obtain ⟨hsize, hdirty, hupdates, hzero, hone⟩ := hfacts
  have hqueued : AddPredQueued t 0 1 = { t with Dirty := false, Updates := [(0, 1)] } := by
    simp [AddPredQueued, hdirty, hupdates]
  refine ⟨AddPredQueued t 0 1, hreach.addPredQueued fun _ => ⟨by omega, by omega⟩, ?_, ?_, ?_, ?_⟩
  · rw [hqueued, hsize]
  · rw [hqueued]
  · refine TransGen.single ⟨edge_backEdge.mpr ⟨rfl, rfl⟩, ?_, ?_⟩
    · rw [hqueued, hsize]
      decide
    · rw [hqueued, hsize]
      decide
  · intro fuel
    unfold GetSubGraph
    rw [hqueued, hzero, hone]
    rfl

end SmlnjLlvm.TopologicalSort
