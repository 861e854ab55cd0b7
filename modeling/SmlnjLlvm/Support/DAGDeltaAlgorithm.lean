import Mathlib.Data.Finset.Union
import Mathlib.Logic.Relation
import SmlnjLlvm.Support.DeltaAlgorithm

/-!
# Delta debugging with dependencies

`DAGDeltaAlgorithm` minimizes the changes level by level. The changes without
prerequisites come first; a test extends the chosen ones by all their dependents.
-/

namespace SmlnjLlvm.DAGDeltaAlgorithm

open Relation

variable {α : Type} [LinearOrder α]

/-- A turn of the worklist: the predecessors of `Change` succeed it and all it succeeds. -/
def closeTurn (Predecessors : List α) (Change : α) (SuccClosure : α → Option (Finset α)) :
    α → Option (Finset α) :=
  Predecessors.foldl (fun SuccClosure it =>
      Function.update SuccClosure it (some ((SuccClosure it).getD ∅ ∪
        insert Change ((SuccClosure Change).getD ∅))))
    (Function.update SuccClosure Change (some ((SuccClosure Change).getD ∅)))

/-- The successor closure. The last entry of the worklist is the head of the list; there
is no result when `fuel` turns do not empty it. -/
def closeSuccs (Predecessors : α → List α) :
    ℕ → List α → (α → Option (Finset α)) → Option (α → Option (Finset α))
  | _, [], SuccClosure => some SuccClosure
  | 0, _ :: _, _ => none
  | fuel + 1, Change :: Worklist, SuccClosure =>
    closeSuccs Predecessors fuel ((Predecessors Change).reverse ++ Worklist)
      (closeTurn (Predecessors Change) Change SuccClosure)

structure DAGDeltaAlgorithmImpl (α : Type) where
  Roots : List α
  Predecessors : α → List α
  PredClosure : α → Finset α

def DAGDeltaAlgorithmImpl.new (fuel : ℕ) (Changes : Finset α) (Dependencies : List (α × α)) :
    Option (DAGDeltaAlgorithmImpl α) := do
  let Predecessors Node := (Dependencies.filter (·.2 = Node)).map Prod.fst
  let Successors Node := (Dependencies.filter (·.1 = Node)).map Prod.snd
  let Roots := Changes.sort.filter fun Change => (Successors Change).isEmpty
  let SuccClosure ← closeSuccs Predecessors fuel Roots.reverse fun _ => none
  if ∀ Change ∈ Changes, (SuccClosure Change).isSome then
    some { Roots, Predecessors
           PredClosure it2 := Changes.filter fun Change => it2 ∈ (SuccClosure Change).getD ∅ }
  else none

/-- A test of the active changes `Changes` of `CurrentSet`. -/
structure TestCall (α : Type) where
  CurrentSet : Finset α
  Required : Finset α
  Changes : Finset α

def TestCall.Extended (PredClosure : α → Finset α) (call : TestCall α) : Finset α :=
  call.Required ∪ call.Changes ∪ call.Changes.biUnion PredClosure

/-- The cache, the sets on which the predicate was executed, and all tests. -/
structure TestState (α : Type) where
  FailedTestsCache : Finset (Finset α)
  Executed : List (Finset α)
  Calls : List (TestCall α)

def GetTestResult (ExecuteOneTest : Finset α → Bool) (PredClosure : α → Finset α)
    (call : TestCall α) (t : TestState α) : Bool × TestState α :=
  let Extended := call.Extended PredClosure
  let t := { t with Calls := call :: t.Calls }
  if Extended ∈ t.FailedTestsCache then (false, t)
  else
    let Result := ExecuteOneTest Extended
    (Result, { t with
      FailedTestsCache :=
        if Result then t.FailedTestsCache else insert Extended t.FailedTestsCache
      Executed := Extended :: t.Executed })

def helperTest (ExecuteOneTest : Finset α → Bool) (PredClosure : α → Finset α)
    (CurrentSet Required Changes : Finset α) : TestState α → Bool × TestState α :=
  GetTestResult ExecuteOneTest PredClosure { CurrentSet, Required, Changes }

def runLevels (ExecuteOneTest : Finset α → Bool) (impl : DAGDeltaAlgorithmImpl α) :
    ℕ → Finset α → Finset α → TestState α → Option (Finset α × TestState α)
  | 0, _, _, _ => none
  | fuel + 1, CurrentSet, Required, t =>
    if CurrentSet = ∅ then some (Required, t)
    else do
      let (CurrentMinSet, s) ← DeltaAlgorithm.Run
        (helperTest ExecuteOneTest impl.PredClosure CurrentSet Required) CurrentSet
        (DeltaAlgorithm.start t)
      runLevels ExecuteOneTest impl fuel
        (CurrentMinSet.biUnion fun CT => (impl.Predecessors CT).toFinset)
        (Required ∪ CurrentMinSet) s.client

def Run (fuel : ℕ) (ExecuteOneTest : Finset α → Bool) (Changes : Finset α)
    (Dependencies : List (α × α)) : Option (Finset α × TestState α) := do
  let impl ← DAGDeltaAlgorithmImpl.new fuel Changes Dependencies
  runLevels ExecuteOneTest impl (Changes.card + 1) impl.Roots.toFinset ∅
    { FailedTestsCache := ∅, Executed := [], Calls := [] }

/-! ## Dependencies -/

def Requires (Dependencies : List (α × α)) (x y : α) : Prop := (x, y) ∈ Dependencies

def Closed (Dependencies : List (α × α)) (S : Finset α) : Prop :=
  ∀ x y, (x, y) ∈ Dependencies → x ∈ S → y ∈ S

section Closure

variable {Dependencies : List (α × α)} {Changes : Finset α} {preds : α → List α}

omit [LinearOrder α] in
theorem wellFounded_of_acyclic {r : α → α → Prop} (hmem : ∀ x y, r x y → x ∈ Changes)
    (hacyclic : ∀ x, ¬TransGen r x x) : WellFounded r := by
  classical
  have hsub : ∀ x y, r x y → (Changes.filter (TransGen r · x)).card <
      (Changes.filter (TransGen r · y)).card := by
    intro x y hxy
    apply Finset.card_lt_card
    rw [Finset.ssubset_iff_of_subset (Finset.monotone_filter_right _ fun z _ hz => hz.tail hxy)]
    exact ⟨x, Finset.mem_filter.mpr ⟨hmem x y hxy, TransGen.single hxy⟩,
      fun h => hacyclic x (Finset.mem_filter.mp h).2⟩
  exact Subrelation.wf (hsub _ _) (measure fun x => (Changes.filter (TransGen r · x)).card).wf

theorem foldl_update {l : List α} {c : α} (hc : c ∉ l) (SC : α → Option (Finset α)) (x : α) :
    l.foldl (fun SC it => Function.update SC it (some ((SC it).getD ∅ ∪
        insert c ((SC c).getD ∅)))) SC x =
      if x ∈ l then some ((SC x).getD ∅ ∪ insert c ((SC c).getD ∅)) else SC x := by
  induction l generalizing SC with
  | nil => simp
  | cons a l ih =>
    obtain ⟨hca, hcl⟩ := not_or.mp (mt List.mem_cons.mpr hc)
    rw [List.foldl_cons, ih hcl, Function.update_of_ne hca]
    rcases eq_or_ne x a with rfl | hxa
    · by_cases hx : x ∈ l <;> simp [hx]
    · simp [hxa]

theorem closeTurn_getD {l : List α} {c : α} (hc : c ∉ l) (SC : α → Option (Finset α)) (x : α) :
    (closeTurn l c SC x).getD ∅ =
      if x ∈ l then (SC x).getD ∅ ∪ insert c ((SC c).getD ∅) else (SC x).getD ∅ := by
  rw [closeTurn, foldl_update hc, Function.update_self]
  rcases eq_or_ne x c with rfl | hxc
  · simp [hc]
  · rw [Function.update_of_ne hxc]
    split <;> rfl

theorem closeTurn_isSome {l : List α} {c x : α} (hc : c ∉ l) (SC : α → Option (Finset α))
    (hx : x = c ∨ x ∈ l ∨ (SC x).isSome) : (closeTurn l c SC x).isSome := by
  rw [closeTurn, foldl_update hc]
  rcases eq_or_ne x c with rfl | hxc
  · simp [hc]
  · rw [Function.update_of_ne hxc]
    split
    · rfl
    · simp_all

/-- What is entered so far, and what the worklist still has to enter. -/
structure Closing (Dependencies : List (α × α)) (Changes : Finset α) (stack : List α)
    (SC : α → Option (Finset α)) : Prop where
  sound : ∀ x y, y ∈ (SC x).getD ∅ → TransGen (Requires Dependencies) x y
  complete : ∀ x y, TransGen (Requires Dependencies) x y →
    y ∈ (SC x).getD ∅ ∨ (∃ c ∈ stack, ReflTransGen (Requires Dependencies) y c) ∨
      ∃ c ∈ stack, TransGen (Requires Dependencies) x c ∧ y ∈ (SC c).getD ∅
  visited : ∀ x ∈ Changes,
    (SC x).isSome ∨ ∃ c ∈ stack, ReflTransGen (Requires Dependencies) x c

theorem Closing.turn {c : α} {stack : List α} {SC : α → Option (Finset α)}
    (hpreds : ∀ x, x ∈ preds c ↔ Requires Dependencies x c) (hc : c ∉ preds c)
    (h : Closing Dependencies Changes (c :: stack) SC) :
    Closing Dependencies Changes ((preds c).reverse ++ stack) (closeTurn (preds c) c SC) := by
  have entered : ∀ x y, y ∈ (closeTurn (preds c) c SC x).getD ∅ ↔
      y ∈ (SC x).getD ∅ ∨ x ∈ preds c ∧ (y = c ∨ y ∈ (SC c).getD ∅) := by
    intro x y
    rw [closeTurn_getD hc]
    by_cases hx : x ∈ preds c <;> simp [hx, or_left_comm]
  -- a path to the popped change comes from one of its predecessors
  have last : ∀ x, TransGen (Requires Dependencies) x c →
      x ∈ preds c ∨ ∃ p ∈ preds c, TransGen (Requires Dependencies) x p := by
    intro x hx
    obtain ⟨p, hxp, hpc⟩ := TransGen.tail'_iff.mp hx
    rcases reflTransGen_iff_eq_or_transGen.mp hxp with rfl | hxp
    · exact Or.inl ((hpreds p).mpr hpc)
    · exact Or.inr ⟨p, (hpreds p).mpr hpc, hxp⟩
  have stay : ∀ {p : α → Prop}, (∃ d ∈ c :: stack, p d) →
      p c ∨ ∃ d ∈ (preds c).reverse ++ stack, p d := by
    intro p ⟨d, hd, hp⟩
    rcases List.mem_cons.mp hd with rfl | hd
    · exact Or.inl hp
    · exact Or.inr ⟨d, List.mem_append_right _ hd, hp⟩
  have push : ∀ {p : α → Prop}, (∃ d ∈ preds c, p d) →
      ∃ d ∈ (preds c).reverse ++ stack, p d := by
    exact fun ⟨d, hd, hp⟩ => ⟨d, List.mem_append_left _ (List.mem_reverse.mpr hd), hp⟩
  refine ⟨?_, ?_, ?_⟩
  · intro x y hy
    rcases (entered x y).mp hy with hy | ⟨hx, rfl | hy⟩
    · exact h.sound x y hy
    · exact TransGen.single ((hpreds x).mp hx)
    · exact TransGen.head ((hpreds x).mp hx) (h.sound c y hy)
  · -- whatever is entered for `c` is entered for its predecessors, which are pushed
    have through : ∀ x y, TransGen (Requires Dependencies) x c → y = c ∨ y ∈ (SC c).getD ∅ →
        y ∈ (closeTurn (preds c) c SC x).getD ∅ ∨ ∃ d ∈ (preds c).reverse ++ stack,
          TransGen (Requires Dependencies) x d ∧ y ∈ (closeTurn (preds c) c SC d).getD ∅ := by
      intro x y hxc hy
      rcases last x hxc with hx | ⟨p, hp, hxp⟩
      · exact Or.inl ((entered x y).mpr (Or.inr ⟨hx, hy⟩))
      · exact Or.inr (push ⟨p, hp, hxp, (entered p y).mpr (Or.inr ⟨hp, hy⟩)⟩)
    intro x y hxy
    rcases h.complete x y hxy with hy | hy | hy
    · exact Or.inl ((entered x y).mpr (Or.inl hy))
    · rcases stay hy with hyc | hy
      · rcases reflTransGen_iff_eq_or_transGen.mp hyc with rfl | hyc
        · exact (through x c hxy (Or.inl rfl)).imp_right Or.inr
        · refine Or.inr (Or.inl ?_)
          rcases last y hyc with hy | ⟨p, hp, hyp⟩
          · exact push ⟨y, hy, ReflTransGen.refl⟩
          · exact push ⟨p, hp, hyp.to_reflTransGen⟩
      · exact Or.inr (Or.inl hy)
    · rcases stay hy with ⟨hxc, hy⟩ | ⟨d, hd, hxd, hy⟩
      · exact (through x y hxc (Or.inr hy)).imp_right Or.inr
      · exact Or.inr (Or.inr ⟨d, hd, hxd, (entered d y).mpr (Or.inl hy)⟩)
  · intro x hx
    rcases h.visited x hx with hx | hx
    · exact Or.inl (closeTurn_isSome hc SC (Or.inr (Or.inr hx)))
    · rcases stay hx with hxc | hx
      · rcases reflTransGen_iff_eq_or_transGen.mp hxc with rfl | hxc
        · exact Or.inl (closeTurn_isSome hc SC (Or.inl rfl))
        · rcases last x hxc with hx | ⟨p, hp, hxp⟩
          · exact Or.inl (closeTurn_isSome hc SC (Or.inr (Or.inl hx)))
          · exact Or.inr (push ⟨p, hp, hxp.to_reflTransGen⟩)
      · exact Or.inr hx

theorem closeSuccs_closing {fuel : ℕ} {stack : List α} {SC SC' : α → Option (Finset α)}
    (hpreds : ∀ x c, x ∈ preds c ↔ Requires Dependencies x c) (hc : ∀ c, c ∉ preds c)
    (h : Closing Dependencies Changes stack SC) (hrun : closeSuccs preds fuel stack SC = some SC') :
    Closing Dependencies Changes [] SC' := by
  induction fuel generalizing stack SC with
  | zero =>
    cases stack with
    | nil => cases hrun; exact h
    | cons c stack => cases hrun
  | succ fuel ih =>
    cases stack with
    | nil => cases hrun; exact h
    | cons c stack => exact ih (h.turn (fun x => hpreds x c) (hc c)) hrun

/-- After some number of turns the entries of `l` are removed and nothing is left of them. -/
def Ends (preds : α → List α) (l : List α) : Prop :=
  ∃ n, ∀ stack SC, ∃ SC', ∀ fuel,
    closeSuccs preds (n + fuel) (l ++ stack) SC = closeSuccs preds fuel stack SC'

theorem Ends.append {l l' : List α} (h : Ends preds l) (h' : Ends preds l') :
    Ends preds (l ++ l') := by
  obtain ⟨n, hn⟩ := h
  obtain ⟨n', hn'⟩ := h'
  refine ⟨n + n', fun stack SC => ?_⟩
  obtain ⟨SC₁, hSC₁⟩ := hn (l' ++ stack) SC
  obtain ⟨SC₂, hSC₂⟩ := hn' stack SC₁
  exact ⟨SC₂, fun fuel => by rw [Nat.add_assoc, List.append_assoc, hSC₁, hSC₂]⟩

theorem Ends.of_forall {l : List α} (h : ∀ c ∈ l, Ends preds [c]) : Ends preds l := by
  induction l with
  | nil => exact ⟨0, fun stack SC => ⟨SC, fun fuel => by rw [Nat.zero_add]; rfl⟩⟩
  | cons c l ih =>
    obtain ⟨hc, hl⟩ := List.forall_mem_cons.mp h
    exact hc.append (ih hl)

theorem ends_singleton (hwf : WellFounded fun p c => p ∈ preds c) (c : α) : Ends preds [c] := by
  induction c using hwf.induction with
  | _ c ih =>
    obtain ⟨n, hn⟩ : Ends preds (preds c).reverse :=
      Ends.of_forall fun p hp => ih p (List.mem_reverse.mp hp)
    refine ⟨n + 1, fun stack SC => ?_⟩
    obtain ⟨SC', hSC'⟩ := hn stack (closeTurn (preds c) c SC)
    exact ⟨SC', fun fuel => by rw [Nat.add_right_comm]; exact hSC' fuel⟩

/-- What the constructor builds. -/
structure Built (Changes : Finset α) (Dependencies : List (α × α))
    (impl : DAGDeltaAlgorithmImpl α) : Prop where
  roots : ∀ x, x ∈ impl.Roots ↔ x ∈ Changes ∧ ∀ y, ¬Requires Dependencies x y
  preds : ∀ x c, x ∈ impl.Predecessors c ↔ Requires Dependencies x c
  predClosure : ∀ x c, x ∈ impl.PredClosure c ↔ TransGen (Requires Dependencies) x c

omit [LinearOrder α] in
theorem exists_root (hmem : ∀ x y, Requires Dependencies x y → x ∈ Changes ∧ y ∈ Changes)
    (hacyclic : ∀ x, ¬TransGen (Requires Dependencies) x x) (x : α) (hx : x ∈ Changes) :
    ∃ r ∈ Changes, (∀ y, ¬Requires Dependencies r y) ∧
      ReflTransGen (Requires Dependencies) x r := by
  have hwf : WellFounded (Function.swap (Requires Dependencies)) :=
    wellFounded_of_acyclic (fun y x h => (hmem x y h).2)
      fun x h => hacyclic x (transGen_swap.mp h)
  induction x using hwf.induction with
  | _ x ih =>
    by_cases hroot : ∀ y, ¬Requires Dependencies x y
    · exact ⟨x, hx, hroot, ReflTransGen.refl⟩
    · obtain ⟨y, hy⟩ := not_forall_not.mp hroot
      obtain ⟨r, hr, hroot, hpath⟩ := ih y hy (hmem x y hy).2
      exact ⟨r, hr, hroot, ReflTransGen.head hy hpath⟩

theorem new_spec (hmem : ∀ x y, Requires Dependencies x y → x ∈ Changes ∧ y ∈ Changes)
    (hacyclic : ∀ x, ¬TransGen (Requires Dependencies) x x) :
    ∃ bound impl, (∀ fuel ≥ bound,
      DAGDeltaAlgorithmImpl.new fuel Changes Dependencies = some impl) ∧
        Built Changes Dependencies impl := by
  let preds (Node : α) := (Dependencies.filter (·.2 = Node)).map Prod.fst
  have hpreds : ∀ x c, x ∈ preds c ↔ Requires Dependencies x c := by
    intro x c
    simp [preds, Requires]
  let Roots := Changes.sort.filter fun Change =>
    ((Dependencies.filter (·.1 = Change)).map Prod.snd).isEmpty
  have hRoots : ∀ x, x ∈ Roots ↔ x ∈ Changes ∧ ∀ y, ¬Requires Dependencies x y := by
    intro x
    have hempty : ((Dependencies.filter (·.1 = x)).map Prod.snd).isEmpty ↔
        ∀ a b, (a, b) ∈ Dependencies → ¬a = x := by simp
    rw [List.mem_filter, Finset.mem_sort, hempty]
    exact and_congr_right fun _ =>
      ⟨fun h y hy => h x y hy rfl, fun h a b hab hax => h b (hax ▸ hab)⟩
  have hwf : WellFounded fun p c => p ∈ preds c := by
    simp only [hpreds]
    exact wellFounded_of_acyclic (fun x y h => (hmem x y h).1) hacyclic
  have hself : ∀ c, c ∉ preds c := fun c h => hacyclic c (TransGen.single ((hpreds c c).mp h))
  obtain ⟨bound, hends⟩ : Ends preds Roots.reverse := Ends.of_forall fun c _ => ends_singleton hwf c
  obtain ⟨SC, hSC⟩ := hends [] fun _ => none
  have hrun : ∀ fuel ≥ bound, closeSuccs preds fuel Roots.reverse (fun _ => none) = some SC := by
    intro fuel hfuel
    have hends := hSC (fuel - bound)
    rw [Nat.add_sub_cancel' hfuel, List.append_nil] at hends
    rw [hends, closeSuccs]
  have habove : ∀ x ∈ Changes, ∃ c ∈ Roots.reverse, ReflTransGen (Requires Dependencies) x c := by
    intro x hx
    obtain ⟨r, hr, hroot, hpath⟩ := exists_root hmem hacyclic x hx
    exact ⟨r, List.mem_reverse.mpr ((hRoots r).mpr ⟨hr, hroot⟩), hpath⟩
  have hstart : Closing Dependencies Changes Roots.reverse fun _ => none := by
    refine ⟨by simp, fun x y hxy => ?_, fun x hx => Or.inr (habove x hx)⟩
    obtain ⟨z, -, hzy⟩ := TransGen.tail'_iff.mp hxy
    exact Or.inr (Or.inl (habove y (hmem z y hzy).2))
  have hclosed := closeSuccs_closing hpreds hself hstart (hrun bound (Nat.le_refl _))
  refine ⟨bound, { Roots, Predecessors := preds
                   PredClosure it2 := Changes.filter fun Change => it2 ∈ (SC Change).getD ∅ },
    fun fuel hfuel => ?_, hRoots, hpreds, fun x c => ?_⟩
  · have hvisited : ∀ Change ∈ Changes, (SC Change).isSome := by
      simpa using hclosed.visited
    unfold DAGDeltaAlgorithmImpl.new
    change (closeSuccs preds fuel Roots.reverse fun _ => none).bind _ = _
    rw [hrun fuel hfuel]
    exact if_pos hvisited
  · rw [Finset.mem_filter]
    constructor
    · exact fun h => hclosed.sound x c h.2
    · intro hxc
      obtain ⟨z, hxz, -⟩ := TransGen.head'_iff.mp hxc
      refine ⟨(hmem x z hxz).1, ?_⟩
      simpa using hclosed.complete x c hxc

end Closure

/-! ## Levels -/

def Separates (Dependencies : List (α × α)) (PredClosure : α → Finset α) (call : TestCall α) :
    Prop :=
  ∃ c ∈ call.Changes, ∃ d ∈ call.CurrentSet, d ∉ call.Extended PredClosure ∧
    ∃ x, ReflTransGen (Requires Dependencies) x c ∧ TransGen (Requires Dependencies) x d

section Levels

variable {Dependencies : List (α × α)} {impl : DAGDeltaAlgorithmImpl α} {Changes : Finset α}
  {P : Finset α → Bool} {Q A M S : Finset α} {t : TestState α}

abbrev extended (impl : DAGDeltaAlgorithmImpl α) (A Q S : Finset α) : Finset α :=
  TestCall.Extended impl.PredClosure ⟨A, Q, S⟩

omit [LinearOrder α] in
theorem Closed.path {x y : α} (h : Closed Dependencies S)
    (hxy : ReflTransGen (Requires Dependencies) x y) (hx : x ∈ S) : y ∈ S := by
  induction hxy with
  | refl => exact hx
  | tail _ hyz ih => exact h _ _ hyz ih

theorem mem_extended (hb : Built Changes Dependencies impl) {x : α} :
    x ∈ extended impl A Q S ↔ x ∈ Q ∨ ∃ c ∈ S, ReflTransGen (Requires Dependencies) x c := by
  simp only [extended, TestCall.Extended, Finset.mem_union, Finset.mem_biUnion, hb.predClosure,
    or_assoc]
  apply or_congr_right
  constructor
  · rintro (hx | ⟨c, hc, hxc⟩)
    · exact ⟨x, hx, ReflTransGen.refl⟩
    · exact ⟨c, hc, hxc.to_reflTransGen⟩
  · rintro ⟨c, hc, hxc⟩
    rcases reflTransGen_iff_eq_or_transGen.mp hxc with rfl | hxc
    · exact Or.inl hc
    · exact Or.inr ⟨c, hc, hxc⟩

/-- The active changes and all that depend on them, with the required ones. -/
structure Level (Dependencies : List (α × α)) (impl : DAGDeltaAlgorithmImpl α)
    (A Q : Finset α) : Prop where
  whole : Closed Dependencies (extended impl A Q A)
  required : Closed Dependencies Q
  disjoint : Disjoint A Q

theorem Level.closed_iff (hb : Built Changes Dependencies impl) (h : Level Dependencies impl A Q)
    (hS : S ⊆ A) : Closed Dependencies (extended impl A Q S) ↔
      ¬Separates Dependencies impl.PredClosure ⟨A, Q, S⟩ := by
  constructor
  · rintro hclosed ⟨c, hc, d, -, hd, x, hxc, hxd⟩
    apply hd
    exact hclosed.path hxd.to_reflTransGen ((mem_extended hb).mpr (Or.inr ⟨c, hc, hxc⟩))
  · intro hsep x y hxy hx
    rcases (mem_extended hb).mp hx with hx | ⟨c, hc, hxc⟩
    · exact (mem_extended hb).mpr (Or.inl (h.required x y hxy hx))
    have hy := h.whole x y hxy ((mem_extended hb).mpr (Or.inr ⟨c, hS hc, hxc⟩))
    rcases (mem_extended hb).mp hy with hy | ⟨d, hd, hyd⟩
    · exact (mem_extended hb).mpr (Or.inl hy)
    have hd' : d ∈ extended impl A Q S := by
      by_contra hnot
      exact hsep ⟨c, hc, d, hd, hnot, x, hxc, TransGen.head' hxy hyd⟩
    rcases (mem_extended hb).mp hd' with hQ | ⟨c', hc', hdc⟩
    · exact absurd hQ (Finset.disjoint_left.mp h.disjoint hd)
    · exact (mem_extended hb).mpr (Or.inr ⟨c', hc', hyd.trans hdc⟩)

abbrev nextSet (impl : DAGDeltaAlgorithmImpl α) (M : Finset α) : Finset α :=
  M.biUnion fun CT => (impl.Predecessors CT).toFinset

theorem mem_nextSet (hb : Built Changes Dependencies impl) {x : α} :
    x ∈ nextSet impl M ↔ ∃ c ∈ M, Requires Dependencies x c := by
  simp [nextSet, hb.preds]

theorem extended_next (hb : Built Changes Dependencies impl) :
    extended impl (nextSet impl M) (Q ∪ M) (nextSet impl M) = extended impl A Q M := by
  ext x
  rw [mem_extended hb, mem_extended hb, Finset.mem_union, or_assoc]
  apply or_congr_right
  constructor
  · rintro (hx | ⟨p, hp, hxp⟩)
    · exact ⟨x, hx, ReflTransGen.refl⟩
    · obtain ⟨c, hc, hpc⟩ := (mem_nextSet hb).mp hp
      exact ⟨c, hc, hxp.tail hpc⟩
  · rintro ⟨c, hc, hxc⟩
    rcases ReflTransGen.cases_tail hxc with rfl | ⟨p, hxp, hpc⟩
    · exact Or.inl hc
    · exact Or.inr ⟨p, (mem_nextSet hb).mpr ⟨c, hc, hpc⟩, hxp⟩

theorem Level.next (hb : Built Changes Dependencies impl) (h : Level Dependencies impl A Q)
    (hM : M ⊆ A) (hclosed : Closed Dependencies (extended impl A Q M))
    (hanti : ∀ x ∈ M, ∀ y ∈ M, ¬TransGen (Requires Dependencies) x y) :
    Level Dependencies impl (nextSet impl M) (Q ∪ M) where
  whole := by rwa [extended_next hb]
  required x y hxy hx := by
    rcases Finset.mem_union.mp hx with hx | hx
    · exact Finset.mem_union_left M (h.required x y hxy hx)
    · have hy := hclosed x y hxy ((mem_extended hb).mpr (Or.inr ⟨x, hx, ReflTransGen.refl⟩))
      rcases (mem_extended hb).mp hy with hy | ⟨c, hc, hyc⟩
      · exact Finset.mem_union_left M hy
      · exact absurd (TransGen.head' hxy hyc) (hanti x hx c hc)
  disjoint := by
    rw [Finset.disjoint_left]
    intro x hx hQ
    obtain ⟨c, hc, hxc⟩ := (mem_nextSet hb).mp hx
    rcases Finset.mem_union.mp hQ with hQ | hxM
    · exact Finset.disjoint_left.mp h.disjoint (hM hc) (h.required x c hxc hQ)
    · exact hanti x hxM c hc (TransGen.single hxc)

theorem minimal_antichain (hb : Built Changes Dependencies impl)
    (hacyclic : ∀ x, ¬TransGen (Requires Dependencies) x x)
    (hpass : P (extended impl A Q M) = true)
    (hmin : ∀ r ∈ M, P (extended impl A Q (M.erase r)) = false) :
    ∀ x ∈ M, ∀ y ∈ M, ¬TransGen (Requires Dependencies) x y := by
  intro x hx y hy hxy
  have hne : y ≠ x := by
    rintro rfl
    exact hacyclic y hxy
  have hsame : extended impl A Q (M.erase x) = extended impl A Q M := by
    ext z
    rw [mem_extended hb, mem_extended hb]
    apply or_congr_right
    constructor
    · exact fun ⟨c, hc, hzc⟩ => ⟨c, Finset.mem_of_mem_erase hc, hzc⟩
    · rintro ⟨c, hc, hzc⟩
      rcases eq_or_ne c x with rfl | hcx
      · exact ⟨y, Finset.mem_erase.mpr ⟨hne, hy⟩, hzc.trans hxy.to_reflTransGen⟩
      · exact ⟨c, Finset.mem_erase.mpr ⟨hcx, hc⟩, hzc⟩
  have hfail := hmin x hx
  rw [hsame, hpass] at hfail
  cases hfail

/-- The cache and the executed sets are those of the tests. -/
structure Consistent (impl : DAGDeltaAlgorithmImpl α) (P : Finset α → Bool) (t : TestState α) :
    Prop where
  cache : ∀ S ∈ t.FailedTestsCache, S ∈ t.Executed ∧ P S = false
  executed : ∀ S, S ∈ t.Executed ↔ ∃ call ∈ t.Calls, call.Extended impl.PredClosure = S

/-- After the tests of the sets `L` of active changes. -/
structure Tests (impl : DAGDeltaAlgorithmImpl α) (P : Finset α → Bool) (A Q : Finset α)
    (t : TestState α) (L : List (Finset α)) (t' : TestState α) : Prop where
  consistent : Consistent impl P t'
  calls : t'.Calls = L.map (TestCall.mk A Q) ++ t.Calls
  subset : ∀ S ∈ L, S ⊆ A

theorem helperTest_decides : DeltaAlgorithm.Decides (helperTest P impl.PredClosure A Q) A
    (fun S => P (extended impl A Q S)) (Tests impl P A Q t) := by
  intro S hS L t' h
  have hcalls : ⟨A, Q, S⟩ :: t'.Calls = (S :: L).map (TestCall.mk A Q) ++ t.Calls := by
    rw [h.calls]
    rfl
  have hsubset : ∀ T ∈ S :: L, T ⊆ A := List.forall_mem_cons.mpr ⟨hS, h.subset⟩
  unfold helperTest GetTestResult
  by_cases hcached : extended impl A Q S ∈ t'.FailedTestsCache
  · rw [if_pos hcached]
    obtain ⟨hrun, hfail⟩ := h.consistent.cache _ hcached
    refine ⟨hfail.symm, ⟨h.consistent.cache, fun T => ?_⟩, hcalls, hsubset⟩
    rw [List.exists_mem_cons_iff, ← h.consistent.executed T]
    constructor
    · exact Or.inr
    · rintro (rfl | hT)
      · exact hrun
      · exact hT
  · rw [if_neg hcached]
    refine ⟨rfl, ⟨fun T hT => ?_, fun T => ?_⟩, hcalls, hsubset⟩
    · cases hP : P (extended impl A Q S) with
      | true =>
        obtain ⟨hrun, hfail⟩ := h.consistent.cache T (by simpa [hP] using hT)
        exact ⟨List.mem_cons_of_mem _ hrun, hfail⟩
      | false =>
        have hT : T = extended impl A Q S ∨ T ∈ t'.FailedTestsCache := by simpa [hP] using hT
        rcases hT with rfl | hT
        · exact ⟨List.mem_cons_self, hP⟩
        · obtain ⟨hrun, hfail⟩ := h.consistent.cache T hT
          exact ⟨List.mem_cons_of_mem _ hrun, hfail⟩
    · rw [List.exists_mem_cons_iff, ← h.consistent.executed T, List.mem_cons]
      exact or_congr_left eq_comm

def AllClosed (Dependencies : List (α × α)) (impl : DAGDeltaAlgorithmImpl α) (t : TestState α) :
    Prop :=
  ∀ call ∈ t.Calls, Closed Dependencies (call.Extended impl.PredClosure)

def NoneSeparates (Dependencies : List (α × α)) (impl : DAGDeltaAlgorithmImpl α)
    (t : TestState α) : Prop :=
  ∀ call ∈ t.Calls, ¬Separates Dependencies impl.PredClosure call

theorem Tests.closed_iff {L : List (Finset α)} {t' : TestState α}
    (hb : Built Changes Dependencies impl) (h : Tests impl P A Q t L t')
    (hlevel : Level Dependencies impl A Q)
    (ht : AllClosed Dependencies impl t ↔ NoneSeparates Dependencies impl t) :
    AllClosed Dependencies impl t' ↔ NoneSeparates Dependencies impl t' := by
  unfold AllClosed NoneSeparates
  rw [h.calls]
  simp only [List.forall_mem_append, List.forall_mem_map]
  exact and_congr (forall₂_congr fun S hS => hlevel.closed_iff hb (h.subset S hS)) ht

omit [LinearOrder α] in
theorem card_predClosure_lt (hb : Built Changes Dependencies impl)
    (hacyclic : ∀ x, ¬TransGen (Requires Dependencies) x x) {x y : α}
    (hxy : Requires Dependencies x y) :
    (impl.PredClosure x).card < (impl.PredClosure y).card := by
  apply Finset.card_lt_card
  rw [Finset.ssubset_iff_of_subset]
  · exact ⟨x, (hb.predClosure x y).mpr (TransGen.single hxy),
      fun h => hacyclic x ((hb.predClosure x x).mp h)⟩
  · intro z hz
    exact (hb.predClosure z y).mpr (((hb.predClosure z x).mp hz).tail hxy)

theorem runLevels_spec (hb : Built Changes Dependencies impl)
    (hacyclic : ∀ x, ¬TransGen (Requires Dependencies) x x) {fuel : ℕ} (hpos : 0 < fuel)
    (hfuel : ∀ c ∈ A, (impl.PredClosure c).card + 1 < fuel)
    (hP : P (extended impl A Q A) = true) (ht : Consistent impl P t) :
    ∃ R t', runLevels P impl fuel A Q t = some (R, t') ∧ P R = true ∧ Consistent impl P t' ∧
      t.Calls ⊆ t'.Calls ∧ (Level Dependencies impl A Q →
        (AllClosed Dependencies impl t ↔ NoneSeparates Dependencies impl t) →
        (AllClosed Dependencies impl t' ∧ Closed Dependencies R ↔
          NoneSeparates Dependencies impl t')) := by
  induction fuel generalizing A Q t with
  | zero => exact absurd hpos (Nat.lt_irrefl 0)
  | succ fuel ih =>
    unfold runLevels
    by_cases hdone : A = ∅
    · rw [if_pos hdone]
      subst hdone
      have hQ : extended impl ∅ Q ∅ = Q := by simp [extended, TestCall.Extended]
      rw [hQ] at hP
      refine ⟨Q, t, rfl, hP, ht, List.Subset.refl _, fun hlevel hiff => ?_⟩
      rw [← hiff, and_iff_left hlevel.required]
    · rw [if_neg hdone]
      have hbegin : DeltaAlgorithm.Tested (fun S => P (extended impl A Q S)) (Tests impl P A Q t)
          (DeltaAlgorithm.start t) :=
        ⟨by simp [DeltaAlgorithm.start], List.nodup_nil, ht, rfl, by simp [DeltaAlgorithm.start]⟩
      obtain ⟨M, s, hrun, hmin⟩ := DeltaAlgorithm.Run_spec helperTest_decides hP hbegin
      have htests := hmin.tested.client
      obtain ⟨c₀, hc₀⟩ := Finset.nonempty_iff_ne_empty.mpr hdone
      have hnext : ∀ c ∈ nextSet impl M, (impl.PredClosure c).card + 1 < fuel := by
        intro c hc
        obtain ⟨d, hd, hcd⟩ := (mem_nextSet hb).mp hc
        have hlt := card_predClosure_lt hb hacyclic hcd
        have hd := hfuel d (hmin.subset hd)
        omega
      have hpass : P (extended impl (nextSet impl M) (Q ∪ M) (nextSet impl M)) = true := by
        rw [extended_next hb]
        exact hmin.passes
      obtain ⟨R, t', hrest, hR, ht', hcalls, hiff⟩ :=
        ih (by have := hfuel c₀ hc₀; omega) hnext hpass htests.consistent
      have hgrows : s.client.Calls ⊆ t'.Calls := hcalls
      refine ⟨R, t', ?_, hR, ht', ?_, fun hlevel hstart => ?_⟩
      · rw [hrun]
        exact hrest
      · rw [htests.calls] at hcalls
        exact List.Subset.trans (List.subset_append_right _ _) hcalls
      · have hsofar := htests.closed_iff hb hlevel hstart
        by_cases hclosed : AllClosed Dependencies impl s.client
        · have hM : Closed Dependencies (extended impl A Q M) := by
            rcases hmin.executed with rfl | hM
            · exact hlevel.whole
            · apply hclosed ⟨A, Q, M⟩
              rw [htests.calls]
              exact List.mem_append_left _ (List.mem_map_of_mem hM)
          exact hiff (hlevel.next hb hmin.subset hM
            (minimal_antichain hb hacyclic hmin.passes hmin.minimal)) hsofar
        · constructor
          · exact fun h => absurd (fun call hcall => h.1 call (hgrows hcall)) hclosed
          · exact fun h => absurd (hsofar.mpr fun call hcall => h call (hgrows hcall)) hclosed

end Levels

/-- The run ends, and its result passes. The tested sets and the result are closed exactly
if no test separates two active changes with a common dependent. -/
theorem run_closed_iff (Changes : Finset α) (Dependencies : List (α × α)) (P : Finset α → Bool)
    (hmem : ∀ x y, (x, y) ∈ Dependencies → x ∈ Changes ∧ y ∈ Changes)
    (hacyclic : ∀ x, ¬TransGen (Requires Dependencies) x x) (hP : P Changes = true) :
    ∃ bound impl R t, (∀ fuel ≥ bound,
        DAGDeltaAlgorithmImpl.new fuel Changes Dependencies = some impl ∧
        Run fuel P Changes Dependencies = some (R, t)) ∧ P R = true ∧
      ((∀ S ∈ t.Executed, Closed Dependencies S) ∧ Closed Dependencies R ↔
        ∀ call ∈ t.Calls, ¬Separates Dependencies impl.PredClosure call) := by
  obtain ⟨bound, impl, hnew, hb⟩ := new_spec hmem hacyclic
  have hall : extended impl impl.Roots.toFinset ∅ impl.Roots.toFinset = Changes := by
    ext x
    rw [mem_extended hb]
    simp only [Finset.notMem_empty, false_or, List.mem_toFinset, hb.roots]
    constructor
    · rintro ⟨r, ⟨hr, -⟩, hpath⟩
      rcases ReflTransGen.cases_head hpath with rfl | ⟨y, hxy, -⟩
      · exact hr
      · exact (hmem x y hxy).1
    · intro hx
      obtain ⟨r, hr, hroot, hpath⟩ := exists_root hmem hacyclic x hx
      exact ⟨r, ⟨hr, hroot⟩, hpath⟩
  have hlevel : Level Dependencies impl impl.Roots.toFinset ∅ :=
    ⟨by rw [hall]; exact fun x y hxy _ => (hmem x y hxy).2, by simp [Closed], by simp⟩
  have hfuel : ∀ c ∈ impl.Roots.toFinset, (impl.PredClosure c).card + 1 < Changes.card + 1 := by
    intro c hc
    have hc := ((hb.roots c).mp (List.mem_toFinset.mp hc)).1
    apply Nat.succ_lt_succ
    apply Finset.card_lt_card
    rw [Finset.ssubset_iff_of_subset]
    · exact ⟨c, hc, fun h => hacyclic c ((hb.predClosure c c).mp h)⟩
    · intro x hx
      obtain ⟨y, hxy, -⟩ := TransGen.head'_iff.mp ((hb.predClosure x c).mp hx)
      exact (hmem x y hxy).1
  let t₀ : TestState α := { FailedTestsCache := ∅, Executed := [], Calls := [] }
  have ht₀ : Consistent impl P t₀ := ⟨by simp [t₀], by simp [t₀]⟩
  obtain ⟨R, t, hrun, hR, ht, -, hiff⟩ :=
    runLevels_spec hb hacyclic (Nat.succ_pos _) hfuel (by rwa [hall]) ht₀
  have hexecuted : (∀ S ∈ t.Executed, Closed Dependencies S) ↔ AllClosed Dependencies impl t := by
    simp only [ht.executed, AllClosed]
    exact ⟨fun h call hcall => h _ ⟨call, hcall, rfl⟩, fun h S ⟨call, hcall, hS⟩ => hS ▸ h call hcall⟩
  refine ⟨bound, impl, R, t, fun fuel hbound => ⟨hnew fuel hbound, ?_⟩, hR, ?_⟩
  · rw [Run, hnew fuel hbound]
    exact hrun
  · rw [hexecuted]
    exact hiff hlevel ⟨by simp [NoneSeparates, t₀], by simp [AllClosed, t₀]⟩

theorem acyclic_of_lt {Dependencies : List (α × α)} (h : ∀ d ∈ Dependencies, d.2 < d.1) (x : α) :
    ¬TransGen (Requires Dependencies) x x := by
  have hlt : ∀ y, TransGen (Requires Dependencies) x y → y < x := fun y hxy => by
    induction hxy with
    | single hxy => exact h _ hxy
    | tail _ hyz ih => exact (h _ hyz).trans ih
  exact fun hx => lt_irrefl x (hlt x hx)

theorem run_closed_iff_pair :
    ∃ bound impl R t, (∀ fuel ≥ bound,
        DAGDeltaAlgorithmImpl.new fuel {1, 2} [(2, 1)] = some impl ∧
        Run fuel (fun S : Finset ℕ => decide (2 ∈ S)) {1, 2} [(2, 1)] = some (R, t)) ∧
      decide (2 ∈ R) = true ∧
      ((∀ S ∈ t.Executed, Closed [(2, 1)] S) ∧ Closed [(2, 1)] R ↔
        ∀ call ∈ t.Calls, ¬Separates [(2, 1)] impl.PredClosure call) :=
  run_closed_iff {1, 2} [(2, 1)] (fun S => decide (2 ∈ S)) (by simp)
    (acyclic_of_lt (by simp)) (by decide)

theorem sort_three : ({1, 2, 3} : Finset ℕ).sort = [1, 2, 3] := by
  apply List.Perm.eq_of_pairwise' (Finset.pairwise_sort _ _) (by decide)
  exact List.perm_of_nodup_nodup_toFinset_eq (Finset.sort_nodup _ _) (by decide) (by simp)

/-- The change 3 is tested and returned with 1, but without 2, which it requires too. -/
theorem run_not_closed :
    (∀ x y, (x, y) ∈ [(3, 1), (3, 2)] → x ∈ ({1, 2, 3} : Finset ℕ) ∧ y ∈ ({1, 2, 3} : Finset ℕ)) ∧
      (∀ x : ℕ, ¬TransGen (Requires [(3, 1), (3, 2)]) x x) ∧
      ∃ t, Run 10 (fun S => decide (3 ∈ S)) {1, 2, 3} [(3, 1), (3, 2)] = some ({1, 3}, t) ∧
        {1, 3} ∈ t.Executed ∧ ¬Closed [(3, 1), (3, 2)] ({1, 3} : Finset ℕ) := by
  have hrun : (Run 10 (fun S : Finset ℕ => decide (3 ∈ S)) {1, 2, 3} [(3, 1), (3, 2)]).map
      (fun r => (r.1, r.2.Executed)) = some ({1, 3}, [{1}, {1, 3}, ∅]) := by
    unfold Run DAGDeltaAlgorithmImpl.new
    rw [sort_three]
    decide
  obtain ⟨⟨R, t⟩, hrun, heq⟩ := Option.map_eq_some_iff.mp hrun
  obtain ⟨rfl, hexecuted⟩ := Prod.mk.inj heq
  dsimp only at hexecuted
  refine ⟨fun x y h => ?_, acyclic_of_lt (by simp), t, hrun, by simp [hexecuted], fun h => ?_⟩
  · simp only [List.mem_cons, Prod.mk.injEq, List.not_mem_nil, or_false] at h
    rcases h with ⟨rfl, rfl⟩ | ⟨rfl, rfl⟩ <;> simp
  · have htwo := h 3 2 (by simp) (by simp)
    simp at htwo

end SmlnjLlvm.DAGDeltaAlgorithm
