import Mathlib.Data.Finset.Lattice.Fold
import Mathlib.Tactic.FinCases
import SmlnjLlvm.Scheduling.EdgeChanges

/-!
# Cached depths and heights over runs

A step that changes edges makes the units dirty whose values may change, if the
latency is not zero and the edge is new or removed. Other steps keep the values
right only when the edge does not matter for the values that are cached.
-/

namespace SmlnjLlvm.Scheduling

variable {V : Type} [DecidableEq V]

/-- The cached value already allows for the dependence `D` of `n`. -/
def Absorbs (side : Side) (s : DAG V) (n : V) (D : SDep V) : Prop :=
  (s (side.head n D)).current side = true →
    (s (side.edge n D).SUnit).current side = true ∧
      (s (side.edge n D).SUnit).value side + D.Latency ≤ (s (side.head n D)).value side

/-- The cached value is that of another path than those over the dependence `D` of `n`. -/
def Survives (side : Side) (s : DAG V) (n : V) (D : SDep V) : Prop :=
  (s (side.head n D)).current side = true →
    (s (side.head n D)).value side = 0 ∨
      ∃ E ∈ ((s (side.head n D)).ins side).erase (side.edge n D),
        (s (side.head n D)).value side = (s E.SUnit).value side + E.Latency

/-- What a step has to meet for the cached values to stay right. -/
def Harmless (s : DAG V) : Op V → Prop
  | .addPred n D Required =>
    match findPred D Required (s n).Preds with
    | .redundant => True
    | .overlapping PredDep => PredDep.Latency < D.Latency → ∀ side, Absorbs side s n D
    | .absent => D.Latency = 0 → ∀ side, Absorbs side s n D
  | .removePred n D => D ∈ (s n).Preds → D.Latency = 0 → ∀ side, Survives side s n D
  | .getDepth n => PathsFit .depth s n
  | .getHeight n => PathsFit .height s n

/-- The predecessors come before a unit in some order. -/
def Acyclic (s : DAG V) : Prop := ∃ rank, Ranked .depth s rank

/-- The states that are reached by steps that do no harm. -/
inductive Reached : DAG V → Prop where
  | start {s : DAG V} (hmirrored : Mirrored s) (hacyclic : Acyclic s)
      (hdirty : ∀ x side, (s x).current side = false) : Reached s
  | step {s s' : DAG V} (h : Reached s) (op : Op V) (hop : Harmless s op) (enough : Nat)
      (hexec : ∀ fuel, enough < fuel → exec fuel s op = some s') (hacyclic : Acyclic s') :
      Reached s'

/-! ## Coherence after a change -/

omit [DecidableEq V] in
theorem maxOver_lt (side : Side) (s : DAG V) (edges : List (SDep V)) :
    maxOver side s edges < 2 ^ 32 := by
  unfold maxOver
  induction edges using List.reverseRecOn with
  | nil => exact Nat.two_pow_pos 32
  | append_singleton edges D ih =>
    rw [List.foldl_append, List.foldl_cons, List.foldl_nil]
    split
    · exact Nat.max_lt.mpr ⟨ih, Nat.mod_lt _ (Nat.two_pow_pos 32)⟩
    · exact ih

variable {D : SDep V} {edges : List (SDep V)} {enough : Nat} {n x : V} {s s' : DAG V}
  {side side' : Side}

theorem Rewired.coherentAt {head : V} (h : Rewired s s' side head edges) (hx : x ≠ head)
    (hcoherent : CoherentAt side s x) : CoherentAt side s' x := by
  refine hcoherent.congr ?_ (h.value x side) ?_ ?_
  · rw [h.ins, if_neg hx]
  · rw [h.current]
    exact id
  · rw [h.current]
    intro hcurrent D hD
    exact ⟨(h.current _ _).trans ((hcoherent hcurrent).1 D hD).1, h.value _ _⟩

theorem Rewired.coherentAt_head {head : V} (h : Rewired s s' side head edges)
    (hedges : (s head).current side = true → ∀ D ∈ edges, (s D.SUnit).current side = true ∧
      (s D.SUnit).value side + D.Latency ≤ (s head).value side)
    (hvalue : (s head).current side = true → (s head).value side < 2 ^ 32 ∧
      ((s head).value side = 0 ∨
        ∃ D ∈ edges, (s head).value side = (s D.SUnit).value side + D.Latency)) :
    CoherentAt side s' head := by
  intro hcurrent
  rw [h.current] at hcurrent
  have hnew (D : SDep V) (hD : D ∈ edges) : (s' D.SUnit).current side = true ∧
      (s' D.SUnit).value side + D.Latency < 2 ^ 32 := by
    rw [h.current, h.value]
    exact ⟨(hedges hcurrent D hD).1, by
      have hle := (hedges hcurrent D hD).2
      have hlt := (hvalue hcurrent).1
      omega⟩
  rw [h.ins, if_pos rfl, h.value]
  refine ⟨hnew, ?_⟩
  have hgreatest := maxOver_isGreatest (fun D hD => (hnew D hD).1) (fun D hD => (hnew D hD).2)
  refine IsGreatest.unique ?_ hgreatest
  refine ⟨?_, ?_⟩
  · rcases (hvalue hcurrent).2 with hzero | ⟨D, hD, heq⟩
    · exact Or.inl hzero
    · exact Or.inr ⟨D, hD, by rw [h.value]; exact heq⟩
  · rintro k (rfl | ⟨D, hD, rfl⟩)
    · exact Nat.zero_le _
    · rw [h.value]
      exact (hedges hcurrent D hD).2

omit [DecidableEq V] in
theorem CoherentAt.sums (h : CoherentAt side s x) (hx : (s x).current side = true) :
    (∀ D ∈ (s x).ins side, (s D.SUnit).current side = true ∧
        (s D.SUnit).value side + D.Latency ≤ (s x).value side) ∧
      (s x).value side < 2 ^ 32 ∧
      ((s x).value side = 0 ∨
        ∃ D ∈ (s x).ins side, (s x).value side = (s D.SUnit).value side + D.Latency) := by
  obtain ⟨hbefore, heq⟩ := h hx
  obtain ⟨hmem, hmax⟩ := maxOver_isGreatest (fun D hD => (hbefore D hD).1)
    (fun D hD => (hbefore D hD).2)
  rw [← heq] at hmem hmax
  refine ⟨fun D hD => ⟨(hbefore D hD).1, hmax (Or.inr ⟨D, hD, rfl⟩)⟩, ?_, hmem⟩
  rw [heq]
  exact maxOver_lt _ _ _

/-- What holds in every reached state. -/
structure Consistent (s : DAG V) : Prop where
  mirrored : Mirrored s
  acyclic : Acyclic s
  coherent : ∀ side, Coherent side s

omit [DecidableEq V] in
theorem Recounted.coherent (h : Recounted s s') (hcoherent : Coherent side s) :
    Coherent side s' := by
  intro x
  refine (hcoherent x).congr (h.ins x side) (h.value x side) ?_ ?_
  · rw [h.current]
    exact id
  · rw [h.current]
    intro hcurrent D hD
    exact ⟨(h.current _ _).trans ((hcoherent x hcurrent).1 D hD).1, h.value _ _⟩

omit [DecidableEq V] in
theorem Dirtied.current_other (h : Dirtied side s s') (hside : side ≠ side') (x : V) :
    (s' x).current side' = (s x).current side' := by
  rcases h x with heq | heq
  · rw [heq]
  · rw [heq]
    cases side <;> cases side' <;> first | rfl | exact absurd rfl hside

omit [DecidableEq V] in
theorem Dirtied.coherentAt_other (h : Dirtied side s s') (hside : side ≠ side')
    (hcoherent : CoherentAt side' s x) : CoherentAt side' s' x := by
  refine hcoherent.congr (h.ins x side') (h.value x side') ?_ ?_
  · rw [h.current_other hside]
    exact id
  · rw [h.current_other hside]
    intro hcurrent D hD
    exact ⟨(h.current_other hside _).trans ((hcoherent hcurrent).1 D hD).1, h.value _ _⟩

theorem setBothDirty_spec [Fintype V] {N : V} {Latency : Nat} (hmirrored : Mirrored s)
    (hdepth : ∀ x, x ≠ n ∨ Latency = 0 → CoherentAt .depth s x)
    (hheight : ∀ x, x ≠ N ∨ Latency = 0 → CoherentAt .height s x) :
    ∃ s' enough, (∀ fuel, enough < fuel → setBothDirty fuel s n N Latency = some s') ∧
      Mirrored s' ∧ (∀ side, Coherent side s') ∧
      ∀ x side, (s' x).ins side = (s x).ins side := by
  unfold setBothDirty
  by_cases hzero : Latency = 0
  · refine ⟨s, 0, fun _ _ => if_neg (not_not.mpr hzero), hmirrored, fun side x => ?_,
      fun _ _ => rfl⟩
    cases side
    · exact hdepth x (Or.inr hzero)
    · exact hheight x (Or.inr hzero)
  · obtain ⟨s₁, enough₁, hrun₁, hdirtied₁, hcoherent₁⟩ :=
      setDirty_spec (hmirrored.linked .depth) fun x hx => hdepth x (Or.inl hx)
    have hmirrored₁ : Mirrored s₁ := hmirrored.congr hdirtied₁.ins
    obtain ⟨s₂, enough₂, hrun₂, hdirtied₂, hcoherent₂⟩ :=
      setDirty_spec (n := N) (hmirrored₁.linked .height) fun x hx =>
        hdirtied₁.coherentAt_other Side.noConfusion (hheight x (Or.inl hx))
    refine ⟨s₂, max enough₁ enough₂, fun fuel hfuel => ?_, hmirrored₁.congr hdirtied₂.ins, ?_, ?_⟩
    · rw [if_pos hzero, setDepthDirty, hrun₁ fuel (by omega)]
      exact hrun₂ fuel (by omega)
    · intro side x
      cases side
      · exact hdirtied₂.coherentAt_other Side.noConfusion (hcoherent₁ x)
      · exact hcoherent₂ x
    · intro x side
      rw [hdirtied₂.ins, hdirtied₁.ins]

/-! ## Steps -/

theorem Rewired.coherentAt_absorbs (h : Rewired s s' side (side.head n D) edges)
    (hcoherent : Coherent side s) (habsorbs : Absorbs side s n D)
    (hedges : ∀ E ∈ edges, E ∈ (s (side.head n D)).ins side ∨
      E.SUnit = (side.edge n D).SUnit ∧ E.Latency = D.Latency)
    (hold : ∀ E ∈ (s (side.head n D)).ins side, E ∈ edges ∨
      E.SUnit = (side.edge n D).SUnit ∧ E.Latency < D.Latency) :
    CoherentAt side s' (side.head n D) := by
  refine h.coherentAt_head (fun hcurrent E hE => ?_) (fun hcurrent => ?_)
  · rcases hedges E hE with hmem | ⟨htail, hLat⟩
    · exact ((hcoherent _).sums hcurrent).1 E hmem
    · rw [htail, hLat]
      exact habsorbs hcurrent
  · obtain ⟨_, hlt, hvalue⟩ := (hcoherent _).sums hcurrent
    refine ⟨hlt, hvalue.imp_right ?_⟩
    rintro ⟨E, hE, heq⟩
    rcases hold E hE with hmem | ⟨htail, hLat⟩
    · exact ⟨E, hmem, heq⟩
    · have hle := (habsorbs hcurrent).2
      rw [← htail] at hle
      omega

theorem raiseLatency_coherent (hmirrored : Mirrored s) (h : Coherent side s) {PredDep : SDep V}
    {Required : Bool} (hfind : findPred D Required (s n).Preds = .overlapping PredDep)
    (hLat : PredDep.Latency < D.Latency) (habsorbs : Absorbs side s n D) :
    Coherent side (raiseLatency s n PredDep D.Latency) := by
  obtain ⟨l₁, l₂, hl, hrewired⟩ := raiseLatency_rewired hmirrored hfind side
  have hover := (findPred_overlapping hfind).1
  simp only [SDep.overlaps, decide_eq_true_eq] at hover
  have hhead : side.head n PredDep = side.head n D := by
    cases side
    · rfl
    · exact hover.1
  have htail : (side.edge n PredDep).SUnit = (side.edge n D).SUnit := by
    cases side
    · exact hover.1
    · rfl
  have hlow : (side.edge n PredDep).Latency < D.Latency := by
    cases side <;> exact hLat
  rw [hhead] at hl hrewired
  intro x
  by_cases hx : x = side.head n D
  · rw [hx]
    refine hrewired.coherentAt_absorbs h habsorbs (fun E hE => ?_) (fun E hE => ?_)
    · rw [hl]
      simp only [List.mem_append, List.mem_cons] at hE ⊢
      rcases hE with hE | rfl | hE
      · exact Or.inl (Or.inl hE)
      · exact Or.inr ⟨htail, rfl⟩
      · exact Or.inl (Or.inr (Or.inr hE))
    · rw [hl] at hE
      simp only [List.mem_append, List.mem_cons] at hE ⊢
      rcases hE with hE | rfl | hE
      · exact Or.inl (Or.inl hE)
      · exact Or.inr ⟨htail, hlow⟩
      · exact Or.inl (Or.inr (Or.inr hE))
  · exact hrewired.coherentAt hx (h x)

theorem insertEdge_coherentAt (h : Coherent side s) (hx : x ≠ side.head n D ∨ Absorbs side s n D) :
    CoherentAt side (insertEdge s n D) x := by
  have hrewired := insertEdge_rewired s n D side
  by_cases hhead : x = side.head n D
  · rw [hhead]
    refine hrewired.coherentAt_absorbs h (hx.resolve_left (not_not.mpr hhead)) (fun E hE => ?_)
      (fun E hE => Or.inl (List.mem_append_left _ hE))
    rcases List.mem_append.mp hE with hE | hE
    · exact Or.inl hE
    · rw [List.mem_singleton.mp hE]
      refine Or.inr ⟨rfl, ?_⟩
      cases side <;> rfl
  · exact hrewired.coherentAt hhead (h x)

theorem eraseEdge_coherentAt (h : Coherent side s) (hx : x ≠ side.head n D ∨ Survives side s n D) :
    CoherentAt side (eraseEdge s n D) x := by
  have hrewired := eraseEdge_rewired s n D side
  by_cases hhead : x = side.head n D
  · rw [hhead]
    refine hrewired.coherentAt_head (fun hcurrent E hE => ?_) (fun hcurrent => ?_)
    · exact ((h _).sums hcurrent).1 E (List.mem_of_mem_erase hE)
    · exact ⟨((h _).sums hcurrent).2.1, hx.resolve_left (not_not.mpr hhead) hcurrent⟩
  · exact hrewired.coherentAt hhead (h x)

theorem addPred_consistent [Fintype V] (h : Consistent s) {Required : Bool}
    (hop : Harmless s (.addPred n D Required))
    (hexec : ∀ fuel, enough < fuel → exec fuel s (.addPred n D Required) = some s')
    (hacyclic : Acyclic s') : Consistent s' := by
  unfold exec addPred at hexec
  unfold Harmless at hop
  have hresult := hexec (enough + 1) (Nat.lt_succ_self _)
  cases hfind : findPred D Required (s n).Preds with
  | redundant =>
    simp only [hfind, Option.map_some, Option.some.injEq] at hresult
    rwa [← hresult]
  | overlapping PredDep =>
    simp only [hfind, Option.map_some, Option.some.injEq] at hresult hop
    split at hresult
    · rename_i hLat
      subst hresult
      exact ⟨raiseLatency_mirrored h.mirrored hfind, hacyclic, fun side =>
        raiseLatency_coherent h.mirrored (h.coherent side) hfind hLat (hop hLat side)⟩
    · rwa [← hresult]
  | absent =>
    simp only [hfind, Option.bind_eq_bind] at hexec hresult hop
    obtain ⟨⟨s₃, b⟩, hresult, -⟩ := Option.map_eq_some_iff.mp hresult
    obtain ⟨s₁, hcounted, -⟩ := Option.bind_eq_some_iff.mp hresult
    simp only [hcounted, Option.bind_some] at hexec
    have hrecounted := countAdded_recounted hcounted
    have hcoherent₁ (side : Side) := hrecounted.coherent (h.coherent side)
    have habsorbs (side : Side) (hzero : D.Latency = 0) : Absorbs side s₁ n D := by
      unfold Absorbs
      simp only [hrecounted.current, hrecounted.value]
      exact hop hzero side
    obtain ⟨s₂, enough₂, hrun, hmirrored, hcoherent, -⟩ := setBothDirty_spec
      (insertEdge_mirrored (h.mirrored.congr hrecounted.ins) n D) (n := n) (N := D.SUnit)
      (fun x hx => insertEdge_coherentAt (hcoherent₁ .depth) (hx.imp_right (habsorbs .depth)))
      (fun x hx => insertEdge_coherentAt (hcoherent₁ .height) (hx.imp_right (habsorbs .height)))
    have hsame := hexec (max enough enough₂ + 1) (by omega)
    rw [hrun _ (by omega)] at hsame
    simp only [Option.bind_some, Option.map_some, Option.some.injEq] at hsame
    rw [hsame] at hmirrored hcoherent
    exact ⟨hmirrored, hacyclic, hcoherent⟩

theorem removePred_consistent [Fintype V] (h : Consistent s) (hop : Harmless s (.removePred n D))
    (hexec : ∀ fuel, enough < fuel → exec fuel s (.removePred n D) = some s')
    (hacyclic : Acyclic s') : Consistent s' := by
  simp only [exec, removePred] at hexec
  have hresult := hexec (enough + 1) (Nat.lt_succ_self _)
  split at hresult
  · rename_i hmem
    simp only [if_pos hmem] at hexec
    have hresult := of_guard_bind hresult
    obtain ⟨s₁, hcounted, -⟩ := Option.bind_eq_some_iff.mp hresult
    have hrecounted := countRemoved_recounted hcounted
    have hcoherent₁ (side : Side) := hrecounted.coherent (h.coherent side)
    have hsurvives (side : Side) (hzero : D.Latency = 0) : Survives side s₁ n D := by
      unfold Survives
      simp only [hrecounted.current, hrecounted.value, hrecounted.ins]
      exact hop hmem hzero side
    obtain ⟨s₂, enough₂, hrun, hmirrored, hcoherent, -⟩ := setBothDirty_spec
      (eraseEdge_mirrored (h.mirrored.congr hrecounted.ins) n D) (n := n) (N := D.SUnit)
      (fun x hx => eraseEdge_coherentAt (hcoherent₁ .depth) (hx.imp_right (hsurvives .depth)))
      (fun x hx => eraseEdge_coherentAt (hcoherent₁ .height) (hx.imp_right (hsurvives .height)))
    have hsame := of_guard_bind (hexec (max enough enough₂ + 1) (by omega))
    simp only [hcounted, Option.bind_eq_bind, Option.bind_some] at hsame
    rw [hrun _ (by omega), Option.some.injEq] at hsame
    rw [hsame] at hmirrored hcoherent
    exact ⟨hmirrored, hacyclic, hcoherent⟩
  · rw [Option.some.injEq] at hresult
    rwa [← hresult]

theorem Consistent.ranked [Fintype V] (h : Consistent s) (side : Side) :
    ∃ rank, Ranked side s rank := by
  obtain ⟨rank, hrank⟩ := h.acyclic
  cases side with
  | depth => exact ⟨rank, hrank⟩
  | height =>
    refine ⟨fun x => Finset.univ.sup rank - rank x, fun x D hD => ?_⟩
    obtain ⟨D', hD', heq⟩ := h.mirrored.linked .height x D hD
    have hlt := hrank D.SUnit D' hD'
    rw [heq] at hlt
    have hle : rank D.SUnit ≤ Finset.univ.sup rank := Finset.le_sup (Finset.mem_univ _)
    show Finset.univ.sup rank - rank D.SUnit < Finset.univ.sup rank - rank x
    omega

omit [DecidableEq V] in
theorem Cached.coherent_other (h : Cached side s s') (hside : side ≠ side')
    (hcoherent : Coherent side' s) : Coherent side' s' := by
  have hsame (x : V) : (s' x).current side' = (s x).current side' ∧
      (s' x).value side' = (s x).value side' := by
    obtain ⟨b, k, heq, -⟩ := h x
    rw [heq]
    cases side <;> cases side' <;> first | exact ⟨rfl, rfl⟩ | exact absurd rfl hside
  intro x
  refine (hcoherent x).congr (h.ins x side') (hsame x).2 ?_ ?_
  · rw [(hsame x).1]
    exact id
  · rw [(hsame x).1]
    intro hcurrent D hD
    exact ⟨(hsame _).1.trans ((hcoherent x hcurrent).1 D hD).1, (hsame _).2⟩

theorem getValue_consistent [Fintype V] (h : Consistent s) (hfits : PathsFit side s n)
    (hexec : ∀ fuel, enough < fuel → (getValue side fuel s n).map Prod.fst = some s') :
    Consistent s' := by
  obtain ⟨rank, hrank⟩ := h.ranked side
  obtain ⟨s₁, enough₁, hrun, hcached, hcoherent, -⟩ := getValue_spec hrank (h.coherent side) hfits
  have hsame := hexec (max enough enough₁ + 1) (by omega)
  rw [hrun _ (by omega), Option.map_some, Option.some.injEq] at hsame
  subst hsame
  refine ⟨h.mirrored.congr hcached.ins, ?_, fun side' => ?_⟩
  · obtain ⟨rank, hrank⟩ := h.acyclic
    refine ⟨rank, fun x D hD => ?_⟩
    rw [hcached.ins] at hD
    exact hrank x D hD
  · by_cases hside : side = side'
    · rwa [← hside]
    · exact hcached.coherent_other hside (h.coherent side')

theorem exec_consistent [Fintype V] (h : Consistent s) {op : Op V} (hop : Harmless s op)
    (hexec : ∀ fuel, enough < fuel → exec fuel s op = some s') (hacyclic : Acyclic s') :
    Consistent s' := by
  cases op with
  | addPred n D Required => exact addPred_consistent h hop hexec hacyclic
  | removePred n D => exact removePred_consistent h hop hexec hacyclic
  | getDepth n => exact getValue_consistent h hop hexec
  | getHeight n => exact getValue_consistent h hop hexec

theorem Reached.consistent [Fintype V] (h : Reached s) : Consistent s := by
  induction h with
  | start hmirrored hacyclic hdirty =>
    refine ⟨hmirrored, hacyclic, fun side x hcurrent => ?_⟩
    rw [hdirty] at hcurrent
    cases hcurrent
  | step _ op hop enough hexec hacyclic ih => exact exec_consistent ih hop hexec hacyclic

theorem Consistent.getValue [Fintype V] (h : Consistent s) (hfits : PathsFit side s n) :
    ∃ s' k enough, (∀ fuel, enough < fuel → getValue side fuel s n = some (s', k)) ∧
      IsGreatest {k | PathTo side s n k} k := by
  obtain ⟨rank, hrank⟩ := h.ranked side
  obtain ⟨s', enough, hrun, hcached, hcoherent, hcurrent⟩ :=
    getValue_spec hrank (h.coherent side) hfits
  refine ⟨s', (s' n).value side, enough, hrun, ?_⟩
  have hrank' : Ranked side s' rank := by
    intro x D hD
    rw [hcached.ins] at hD
    exact hrank x D hD
  obtain ⟨hpath, hmax⟩ := hcoherent.isGreatest hrank' hcurrent
  refine ⟨hpath.congr fun x => (hcached.ins x side).symm, ?_⟩
  intro k hk
  exact hmax (PathTo.congr (fun x => hcached.ins x side) hk)

/-- In every reached state the cached values are right, and so is what is returned. -/
theorem longestPaths_of_reached [Fintype V] {s : DAG V} (h : Reached s) (n : V) :
    ((s n).isDepthCurrent = true → IsGreatest {k | PathTo .depth s n k} (s n).Depth) ∧
      ((s n).isHeightCurrent = true → IsGreatest {k | PathTo .height s n k} (s n).Height) ∧
      (PathsFit .depth s n → ∃ s' Depth enough,
        (∀ fuel, enough < fuel → getDepth fuel s n = some (s', Depth)) ∧
          IsGreatest {k | PathTo .depth s n k} Depth) ∧
      (PathsFit .height s n → ∃ s' Height enough,
        (∀ fuel, enough < fuel → getHeight fuel s n = some (s', Height)) ∧
          IsGreatest {k | PathTo .height s n k} Height) := by
  have hconsistent := h.consistent
  obtain ⟨rank, hdepth⟩ := hconsistent.ranked .depth
  obtain ⟨rank', hheight⟩ := hconsistent.ranked .height
  refine ⟨fun hcurrent => ?_, fun hcurrent => ?_, hconsistent.getValue, hconsistent.getValue⟩
  · exact (hconsistent.coherent .depth).isGreatest hdepth hcurrent
  · exact (hconsistent.coherent .height).isGreatest hheight hcurrent

/-- Two units, of which the second depends on the first. -/
def oneEdge (cached : Bool) : DAG (Fin 2)
  | 0 => { Succs := [⟨1, .Data, 3, 7⟩], NumSuccs := 1, NumSuccsLeft := 1, isDepthCurrent := cached }
  | 1 => { Preds := [⟨0, .Data, 3, 7⟩], NumPreds := 1, NumPredsLeft := 1, isDepthCurrent := cached,
           Depth := if cached then 7 else 0 }

theorem longestPaths_of_reached_oneEdge :
    IsGreatest {k | PathTo .depth (oneEdge true) 1 k} 7 := by
  have hacyclic (cached : Bool) : Acyclic (oneEdge cached) := by
    refine ⟨Fin.val, fun x D hD => ?_⟩
    fin_cases x
    · cases hD
    · rw [List.mem_singleton.mp hD]
      decide
  have hstart : Reached (oneEdge false) := by
    refine .start (fun m n K c l => ?_) (hacyclic false) fun x side => ?_
    · fin_cases m <;> fin_cases n <;> simp [oneEdge, List.count_singleton]
    · cases side <;> fin_cases x <;> rfl
  have hfits : PathsFit .depth (oneEdge false) 1 := by
    rintro k (_ | ⟨D, hD, hpath⟩)
    · decide
    · rw [List.mem_singleton.mp hD] at hpath ⊢
      rcases hpath with _ | ⟨D, hD, -⟩
      · decide
      · cases hD
  have hreached : Reached (oneEdge true) := by
    refine hstart.step (.getDepth 1) hfits 4 (fun fuel hfuel => ?_) (hacyclic true)
    obtain ⟨f, rfl⟩ := Nat.exists_eq_add_of_le' hfuel
    refine congrArg some ?_
    funext x
    fin_cases x <;> rfl
  exact (longestPaths_of_reached hreached 1).1 rfl

/-- The latency of an edge is raised after the depth has been computed. -/
def raisedLatency : List (Op (Fin 2)) :=
  [.addPred 1 ⟨0, .Data, 3, 1⟩ true, .getDepth 1, .addPred 1 ⟨0, .Data, 3, 5⟩ true]

theorem raisedLatency_stale : ∃ s, raisedLatency.foldlM (exec 8) (fun _ => {}) = some s ∧
    Acyclic s ∧ (s 1).isDepthCurrent = true ∧ (getDepth 8 s 1).map Prod.snd = some 1 ∧
      PathTo .depth s 1 5 := by
  refine ⟨_, rfl, ⟨Fin.val, fun x D hD => ?_⟩, rfl, rfl, ?_⟩
  · fin_cases x
    · cases hD
    · rw [List.mem_singleton.mp hD]
      decide
  · exact PathTo.cons ⟨0, .Data, 3, 5⟩ (List.mem_singleton_self _) (PathTo.nil 0)

end SmlnjLlvm.Scheduling
