import SmlnjLlvm.Scheduling.LongestPaths

/-!
# Changes of edges

An edge is kept at both of its ends. On each side it changes the edges that one
value is computed from, and the other values stay coherent.
-/

namespace SmlnjLlvm.Scheduling

variable {V : Type} [DecidableEq V]

/-! ## Units that agree in all but the counts -/

/-- The edges, flags and values are the same. -/
structure Recounted (s s' : DAG V) : Prop where
  ins : ∀ x side, (s' x).ins side = (s x).ins side
  current : ∀ x side, (s' x).current side = (s x).current side
  value : ∀ x side, (s' x).value side = (s x).value side

variable {D PredDep : SDep V} {Required : Bool} {n : V} {s s' : DAG V}

namespace Recounted

omit [DecidableEq V] in
theorem refl (s : DAG V) : Recounted s s := ⟨fun _ _ => rfl, fun _ _ => rfl, fun _ _ => rfl⟩

omit [DecidableEq V] in
theorem trans {s'' : DAG V} (h : Recounted s s') (h' : Recounted s' s'') : Recounted s s'' := by
  refine ⟨fun x side => ?_, fun x side => ?_, fun x side => ?_⟩
  · rw [h'.ins, h.ins]
  · rw [h'.current, h.current]
  · rw [h'.value, h.value]

theorem modify (s : DAG V) (n : V) {f : SUnit V → SUnit V}
    (h : ∀ u side, (f u).ins side = u.ins side ∧ (f u).current side = u.current side ∧
      (f u).value side = u.value side) : Recounted s (s.modify n f) := by
  refine ⟨fun x side => ?_, fun x side => ?_, fun x side => ?_⟩
  all_goals
    by_cases hx : x = n
    · subst hx
      rw [DAG.modify_self]
      simp only [h]
    · rw [DAG.modify_of_ne _ _ hx]

end Recounted

omit [DecidableEq V] in
theorem of_guard_bind {p : Prop} [Decidable p] {o : Unit → Option (DAG V)}
    (h : (guard p >>= o) = some s') : o () = some s' := by
  by_cases hp : p
  · simpa [guard, hp] using h
  · simp [guard, hp] at h

theorem countDataAdded_recounted (h : countDataAdded s n D = some s') : Recounted s s' := by
  simp only [countDataAdded] at h
  split at h
  · cases of_guard_bind (of_guard_bind h)
    refine (Recounted.modify s n ?_).trans (Recounted.modify _ _ ?_)
    all_goals
      intro u side
      cases side <;> exact ⟨rfl, rfl, rfl⟩
  · cases h
    exact Recounted.refl s

theorem countPredAdded_recounted (h : countPredAdded s n D = some s') : Recounted s s' := by
  simp only [countPredAdded] at h
  split at h
  · cases h
    exact Recounted.refl s
  · split at h
    · cases h
      refine Recounted.modify s _ fun u side => ?_
      cases side <;> exact ⟨rfl, rfl, rfl⟩
    · cases of_guard_bind h
      refine Recounted.modify s _ fun u side => ?_
      cases side <;> exact ⟨rfl, rfl, rfl⟩

theorem countSuccAdded_recounted (h : countSuccAdded s n D = some s') : Recounted s s' := by
  simp only [countSuccAdded] at h
  split at h
  · cases h
    exact Recounted.refl s
  · split at h
    · cases h
      refine Recounted.modify s _ fun u side => ?_
      cases side <;> exact ⟨rfl, rfl, rfl⟩
    · cases of_guard_bind h
      refine Recounted.modify s _ fun u side => ?_
      cases side <;> exact ⟨rfl, rfl, rfl⟩

theorem countAdded_recounted (h : countAdded s n D = some s') : Recounted s s' := by
  simp only [countAdded, Option.bind_eq_bind, Option.bind_eq_some_iff] at h
  obtain ⟨s₁, h₁, s₂, h₂, h₃⟩ := h
  exact ((countDataAdded_recounted h₁).trans (countPredAdded_recounted h₂)).trans
    (countSuccAdded_recounted h₃)

theorem countDataRemoved_recounted (h : countDataRemoved s n D = some s') : Recounted s s' := by
  simp only [countDataRemoved] at h
  split at h
  · cases of_guard_bind (of_guard_bind h)
    refine (Recounted.modify s n ?_).trans (Recounted.modify _ _ ?_)
    all_goals
      intro u side
      cases side <;> exact ⟨rfl, rfl, rfl⟩
  · cases h
    exact Recounted.refl s

theorem countPredRemoved_recounted (h : countPredRemoved s n D = some s') : Recounted s s' := by
  simp only [countPredRemoved] at h
  split at h
  · cases h
    exact Recounted.refl s
  · split at h
    all_goals
      cases of_guard_bind h
      refine Recounted.modify s _ fun u side => ?_
      cases side <;> exact ⟨rfl, rfl, rfl⟩

theorem countSuccRemoved_recounted (h : countSuccRemoved s n D = some s') : Recounted s s' := by
  simp only [countSuccRemoved] at h
  split at h
  · cases h
    exact Recounted.refl s
  · split at h
    all_goals
      cases of_guard_bind h
      refine Recounted.modify s _ fun u side => ?_
      cases side <;> exact ⟨rfl, rfl, rfl⟩

theorem countRemoved_recounted (h : countRemoved s n D = some s') : Recounted s s' := by
  simp only [countRemoved, Option.bind_eq_bind, Option.bind_eq_some_iff] at h
  obtain ⟨s₁, h₁, s₂, h₂, h₃⟩ := h
  exact ((countDataRemoved_recounted h₁).trans (countPredRemoved_recounted h₂)).trans
    (countSuccRemoved_recounted h₃)

/-- The unit whose value the dependence `D` of `n` goes into. -/
def Side.head (side : Side) (n : V) (D : SDep V) : V :=
  match side with
  | .depth => n
  | .height => D.SUnit

/-- The dependence as it is listed there. -/
def Side.edge (side : Side) (n : V) (D : SDep V) : SDep V :=
  match side with
  | .depth => D
  | .height => { D with SUnit := n }

/-- Edges are listed equally often at both of their ends. -/
def Mirrored (s : DAG V) : Prop :=
  ∀ m n K c l, (s n).Preds.count ⟨m, K, c, l⟩ = (s m).Succs.count ⟨n, K, c, l⟩

theorem Mirrored.linked (h : Mirrored s) (side : Side) : Linked side s := by
  intro x D hD
  obtain ⟨m, K, c, l⟩ := D
  cases side with
  | depth =>
    refine ⟨⟨x, K, c, l⟩, ?_, rfl⟩
    have hcount := List.count_pos_iff.mpr (show ⟨m, K, c, l⟩ ∈ (s x).Preds from hD)
    rw [h] at hcount
    exact List.count_pos_iff.mp hcount
  | height =>
    refine ⟨⟨x, K, c, l⟩, ?_, rfl⟩
    have hcount := List.count_pos_iff.mpr (show ⟨m, K, c, l⟩ ∈ (s x).Succs from hD)
    rw [← h] at hcount
    exact List.count_pos_iff.mp hcount

theorem Mirrored.countP_eq (h : Mirrored s) (m n : V) :
    (s n).Preds.countP (fun D => decide (D.SUnit = m)) =
      (s m).Succs.countP fun D => decide (D.SUnit = n) := by
  let labels (x : V) (l : List (SDep V)) : List (Kind × Nat × Nat) :=
    (l.filter fun D => decide (D.SUnit = x)).map fun D => (D.Kind, D.Contents, D.Latency)
  have hcount (x : V) (l : List (SDep V)) (K : Kind) (c k : Nat) :
      (labels x l).count (K, c, k) = l.count ⟨x, K, c, k⟩ := by
    simp only [labels, List.count, List.countP_map, List.countP_filter]
    apply List.countP_congr
    rintro ⟨y, K', c', k'⟩ _
    simp only [Function.comp_apply, Bool.and_eq_true, beq_iff_eq, Prod.mk.injEq, decide_eq_true_eq,
      SDep.mk.injEq]
    grind
  have hperm : (labels m (s n).Preds).Perm (labels n (s m).Succs) := by
    rw [List.perm_iff_count]
    rintro ⟨K, c, k⟩
    rw [hcount, hcount]
    exact h m n K c k
  have hlength := hperm.length_eq
  simp only [labels, List.length_map] at hlength
  rw [List.countP_eq_length_filter, List.countP_eq_length_filter]
  exact hlength

theorem Mirrored.congr (h : Mirrored s) (hins : ∀ x side, (s' x).ins side = (s x).ins side) :
    Mirrored s' := by
  intro m n K c l
  rw [show (s' n).Preds = (s n).Preds from hins n .depth,
    show (s' m).Succs = (s m).Succs from hins m .height]
  exact h m n K c l

/-- At one unit the edges have changed, and everything else is the same. -/
structure Rewired (s s' : DAG V) (side : Side) (head : V) (edges : List (SDep V)) : Prop where
  ins : ∀ x, (s' x).ins side = if x = head then edges else (s x).ins side
  current : ∀ x side', (s' x).current side' = (s x).current side'
  value : ∀ x side', (s' x).value side' = (s x).value side'

theorem insertEdge_rewired (s : DAG V) (n : V) (D : SDep V) (side : Side) :
    Rewired s (insertEdge s n D) side (side.head n D)
      ((s (side.head n D)).ins side ++ [side.edge n D]) := by
  unfold insertEdge
  refine ⟨fun x => ?_, fun x side' => ?_, fun x side' => ?_⟩
  · cases side
    all_goals
      simp only [DAG.modify, Side.head, Side.edge, SUnit.ins, Function.update_apply]
      split <;> split <;> simp_all
  all_goals
    cases side'
    all_goals
      simp only [DAG.modify, SUnit.current, SUnit.value, Function.update_apply]
      split <;> split <;> simp_all

theorem rewired_ends (s : DAG V) (n : V) (D : SDep V) (f g : List (SDep V) → List (SDep V))
    (side : Side) :
    Rewired s ((s.modify D.SUnit fun u => { u with Succs := g u.Succs }).modify n fun u =>
        { u with Preds := f u.Preds }) side (side.head n D)
      (match side with
        | .depth => f (s n).Preds
        | .height => g (s D.SUnit).Succs) := by
  refine ⟨fun x => ?_, fun x side' => ?_, fun x side' => ?_⟩
  · cases side
    all_goals
      simp only [DAG.modify, Side.head, SUnit.ins, Function.update_apply]
      split <;> split <;> simp_all
  all_goals
    cases side'
    all_goals
      simp only [DAG.modify, SUnit.current, SUnit.value, Function.update_apply]
      split <;> split <;> simp_all

theorem eraseEdge_rewired (s : DAG V) (n : V) (D : SDep V) (side : Side) :
    Rewired s (eraseEdge s n D) side (side.head n D)
      (((s (side.head n D)).ins side).erase (side.edge n D)) := by
  cases side with
  | depth => exact rewired_ends s n D (List.erase · D) (List.erase · _) .depth
  | height => exact rewired_ends s n D (List.erase · D) (List.erase · _) .height

omit [DecidableEq V] in
theorem setLatency_split {found : SDep V → Bool} {l : List (SDep V)} (h : l.find? found = some D)
    (Lat : Nat) :
    ∃ l₁ l₂, l = l₁ ++ D :: l₂ ∧
      setLatency found Lat l = l₁ ++ { D with Latency := Lat } :: l₂ := by
  induction l with
  | nil => cases h
  | cons E l ih =>
    by_cases hE : found E = true
    · rw [List.find?_cons_of_pos hE, Option.some.injEq] at h
      subst h
      exact ⟨[], l, rfl, by rw [setLatency, if_pos hE]; rfl⟩
    · rw [List.find?_cons_of_neg hE] at h
      obtain ⟨l₁, l₂, hl, hset⟩ := ih h
      refine ⟨E :: l₁, l₂, by rw [hl]; rfl, ?_⟩
      rw [setLatency, if_neg hE, hset]
      rfl

theorem findPred_overlapping {Preds : List (SDep V)}
    (h : findPred D Required Preds = .overlapping PredDep) :
    PredDep.overlaps D = true ∧ Preds.find? (fun E => E.overlaps PredDep) = some PredDep := by
  induction Preds with
  | nil => cases h
  | cons E Preds ih =>
    rw [findPred] at h
    split at h
    · cases h
    · split at h
      · rename_i hE
        cases h
        refine ⟨hE, List.find?_cons_of_pos ?_⟩
        simp [SDep.overlaps]
      · rename_i hE
        obtain ⟨hover, hfind⟩ := ih h
        refine ⟨hover, ?_⟩
        rw [List.find?_cons_of_neg, hfind]
        simp only [SDep.overlaps, decide_eq_true_eq] at hE hover ⊢
        rw [hover.1, hover.2.1, hover.2.2]
        exact hE

theorem insertEdge_mirrored (h : Mirrored s) (n : V) (D : SDep V) :
    Mirrored (insertEdge s n D) := by
  intro m x K c l
  have hPreds := (insertEdge_rewired s n D .depth).ins x
  have hSuccs := (insertEdge_rewired s n D .height).ins m
  simp only [SUnit.ins, Side.head, Side.edge] at hPreds hSuccs
  have hold := h m x K c l
  obtain ⟨N, K', c', l'⟩ := D
  rw [hPreds, hSuccs]
  by_cases hx : x = n <;> by_cases hm : m = N
  all_goals
    simp only [hx, hm, if_true, if_false, List.count_append, List.count_singleton] at hold ⊢
    grind

theorem eraseEdge_mirrored (h : Mirrored s) (n : V) (D : SDep V) : Mirrored (eraseEdge s n D) := by
  intro m x K c l
  have hPreds := (eraseEdge_rewired s n D .depth).ins x
  have hSuccs := (eraseEdge_rewired s n D .height).ins m
  simp only [SUnit.ins, Side.head, Side.edge] at hPreds hSuccs
  have hold := h m x K c l
  obtain ⟨N, K', c', l'⟩ := D
  rw [hPreds, hSuccs]
  by_cases hx : x = n <;> by_cases hm : m = N
  all_goals
    simp only [hx, hm, if_true, if_false, List.count_erase] at hold ⊢
    grind

theorem find?_eq_self {l : List (SDep V)} (h : D ∈ l) :
    l.find? (fun E => decide (E = D)) = some D := by
  induction l with
  | nil => cases h
  | cons E l ih =>
    by_cases hE : E = D
    · rw [hE]
      exact List.find?_cons_of_pos (by simp)
    · rw [List.find?_cons_of_neg (by simpa using hE)]
      exact ih ((List.mem_cons.mp h).resolve_left (Ne.symm hE))

theorem raiseLatency_rewired (h : Mirrored s)
    (hfind : findPred D Required (s n).Preds = .overlapping PredDep) (side : Side) :
    ∃ l₁ l₂, (s (side.head n PredDep)).ins side = l₁ ++ side.edge n PredDep :: l₂ ∧
      Rewired s (raiseLatency s n PredDep D.Latency) side (side.head n PredDep)
        (l₁ ++ { side.edge n PredDep with Latency := D.Latency } :: l₂) := by
  have hfound := (findPred_overlapping hfind).2
  have hends := rewired_ends s n PredDep
    (setLatency (fun E => E.overlaps PredDep) D.Latency)
    (setLatency (fun SuccDep => decide (SuccDep = { PredDep with SUnit := n })) D.Latency) side
  cases side with
  | depth =>
    obtain ⟨l₁, l₂, hl, hset⟩ := setLatency_split hfound D.Latency
    refine ⟨l₁, l₂, hl, ?_⟩
    rw [hset] at hends
    exact hends
  | height =>
    have hmem : { PredDep with SUnit := n } ∈ (s PredDep.SUnit).Succs := by
      have hcount := List.count_pos_iff.mpr (List.mem_of_find?_eq_some hfound)
      rw [h] at hcount
      exact List.count_pos_iff.mp hcount
    have hfound' : (s PredDep.SUnit).Succs.find?
        (fun SuccDep => decide (SuccDep = { PredDep with SUnit := n })) =
          some { PredDep with SUnit := n } := find?_eq_self hmem
    obtain ⟨l₁, l₂, hl, hset⟩ := setLatency_split hfound' D.Latency
    refine ⟨l₁, l₂, hl, ?_⟩
    rw [hset] at hends
    exact hends

theorem raiseLatency_mirrored (h : Mirrored s)
    (hfind : findPred D Required (s n).Preds = .overlapping PredDep) :
    Mirrored (raiseLatency s n PredDep D.Latency) := by
  intro m x K c l
  obtain ⟨p₁, p₂, hp, hPreds⟩ := raiseLatency_rewired h hfind .depth
  obtain ⟨q₁, q₂, hq, hSuccs⟩ := raiseLatency_rewired h hfind .height
  have hPreds := hPreds.ins x
  have hSuccs := hSuccs.ins m
  simp only [SUnit.ins, Side.head, Side.edge] at hp hq hPreds hSuccs
  have hold := h m x K c l
  obtain ⟨N, K', c', l'⟩ := PredDep
  rw [hPreds, hSuccs]
  by_cases hx : x = n <;> by_cases hm : m = N
  all_goals
    simp only [hx, hm, hp, hq, if_true, if_false, List.count_append, List.count_cons] at hold ⊢
    grind

end SmlnjLlvm.Scheduling
