import Mathlib.Data.Finset.Card
import Mathlib.Data.Finset.Sort
import Mathlib.Data.List.Perm.Basic
import Mathlib.Tactic.Common

/-!
# Delta debugging

`DeltaAlgorithm` reduces a set of changes that passes a test to one that passes
it and is minimal: without any one of its changes the test fails. The test may
keep a state of its own.
-/

namespace SmlnjLlvm.DeltaAlgorithm

variable {α τ : Type} [LinearOrder α]

/-- The cache, the sets on which the test was executed, and the state of the test. -/
structure State (α τ : Type) where
  FailedTestsCache : Finset (Finset α)
  Executed : List (Finset α)
  client : τ

variable (ExecuteOneTest : Finset α → τ → Bool × τ)

def GetTestResult (Changes : Finset α) (s : State α τ) : Bool × State α τ :=
  if Changes ∈ s.FailedTestsCache then (false, s)
  else
    let (Result, client) := ExecuteOneTest Changes s.client
    (Result, {
      FailedTestsCache :=
        if Result then s.FailedTestsCache else insert Changes s.FailedTestsCache
      Executed := Changes :: s.Executed
      client })

/-- Before the run no test was executed. -/
def start (client : τ) : State α τ := { FailedTestsCache := ∅, Executed := [], client }

/-- The changes before the position `N` of the set, and the others. -/
def Split (S : Finset α) : List (Finset α) :=
  let N := S.card / 2
  let LHS := S.filter fun x => (S.filter (· < x)).card < N
  let RHS := S.filter fun x => ¬(S.filter (· < x)).card < N
  (if LHS.Nonempty then [LHS] else []) ++ (if RHS.Nonempty then [RHS] else [])

/-- The loop of `Search` over the sets of `rest`, those of `before` being done. -/
def Search (Delta : Finset α → List (Finset α) → State α τ → Option (Finset α × State α τ))
    (Changes : Finset α) (before : List (Finset α)) :
    List (Finset α) → State α τ → Option (Option (Finset α) × State α τ)
  | [], s => some (none, s)
  | it :: rest, s =>
    let (passed, s) := GetTestResult ExecuteOneTest it s
    if passed then do
      let (Res, s) ← Delta it (Split it) s
      return (some Res, s)
    else if (before ++ it :: rest).length > 2 then
      let (passed, s) := GetTestResult ExecuteOneTest (Changes \ it) s
      if passed then do
        let (Res, s) ← Delta (Changes \ it) (before ++ rest) s
        return (some Res, s)
      else Search Delta Changes (before ++ [it]) rest s
    else Search Delta Changes (before ++ [it]) rest s

/-- There is no result when the recursion is deeper than `fuel`. -/
def Delta : Nat → Finset α → List (Finset α) → State α τ → Option (Finset α × State α τ)
  | 0, _, _, _ => none
  | fuel + 1, Changes, Sets, s =>
    if Sets.length ≤ 1 then some (Changes, s)
    else do
      let (found, s) ← Search ExecuteOneTest (Delta fuel) Changes [] Sets s
      match found with
      | some Res => return (Res, s)
      | none =>
        let SplitSets := Sets.flatMap Split
        if SplitSets.length = Sets.length then return (Changes, s)
        else Delta fuel Changes SplitSets s

def Run (Changes : Finset α) (s : State α τ) : Option (Finset α × State α τ) :=
  let (passed, s) := GetTestResult ExecuteOneTest ∅ s
  if passed then some (∅, s)
  else Delta ExecuteOneTest (2 * Changes.card) Changes (Split Changes) s

/-- `Sets` divides the changes into sets that are not empty. -/
structure Partition (Changes : Finset α) (Sets : List (Finset α)) : Prop where
  nonempty : ∀ S ∈ Sets, S.Nonempty
  disjoint : Sets.Pairwise Disjoint
  mem_iff : ∀ x, x ∈ Changes ↔ ∃ S ∈ Sets, x ∈ S

namespace Partition

variable {C S T : Finset α} {Sets Sets' : List (Finset α)}

omit [LinearOrder α] in
theorem subset (h : Partition C Sets) (hS : S ∈ Sets) : S ⊆ C :=
  fun x hx => (h.mem_iff x).mpr ⟨S, hS, hx⟩

omit [LinearOrder α] in
theorem perm (h : Partition C Sets) (hperm : Sets.Perm Sets') : Partition C Sets' where
  nonempty S hS := h.nonempty S (hperm.mem_iff.mpr hS)
  disjoint := (hperm.pairwise_iff fun hd => hd.symm).mp h.disjoint
  mem_iff x := by simp only [h.mem_iff x, hperm.mem_iff]

theorem sdiff (h : Partition C (S :: Sets)) : Partition (C \ S) Sets where
  nonempty T hT := h.nonempty T (List.mem_cons_of_mem S hT)
  disjoint := (List.pairwise_cons.mp h.disjoint).2
  mem_iff x := by
    have hd := (List.pairwise_cons.mp h.disjoint).1
    simp only [Finset.mem_sdiff, h.mem_iff x, List.mem_cons, exists_eq_or_imp]
    constructor
    · rintro ⟨hx | hx, hnot⟩
      · exact absurd hx hnot
      · exact hx
    · rintro ⟨T, hT, hx⟩
      exact ⟨Or.inr ⟨T, hT, hx⟩, fun hS => Finset.disjoint_left.mp (hd T hT) hS hx⟩

theorem append (h : Partition S Sets) (h' : Partition T Sets') (hd : Disjoint S T) :
    Partition (S ∪ T) (Sets ++ Sets') where
  nonempty U hU := (List.mem_append.mp hU).elim (h.nonempty U) (h'.nonempty U)
  disjoint := List.pairwise_append.mpr ⟨h.disjoint, h'.disjoint, fun _ hA _ hB =>
    Finset.disjoint_of_subset_left (h.subset hA) (Finset.disjoint_of_subset_right (h'.subset hB) hd)⟩
  mem_iff x := by simp only [Finset.mem_union, h.mem_iff x, h'.mem_iff x, List.mem_append, or_and_right, exists_or]

theorem card_cons (h : Partition C (S :: Sets)) : C.card = S.card + (C \ S).card := by
  have hsub := h.subset List.mem_cons_self
  rw [Finset.card_sdiff_of_subset hsub, Nat.add_sub_cancel' (Finset.card_le_card hsub)]

theorem length_le (h : Partition C Sets) : Sets.length ≤ C.card := by
  induction Sets generalizing C with
  | nil => exact Nat.zero_le _
  | cons S Sets ih =>
    have hpos := (h.nonempty S List.mem_cons_self).card_pos
    have hrest := ih h.sdiff
    rw [h.card_cons, List.length_cons]
    omega

end Partition

section Split

variable {C S : Finset α} {Sets : List (Finset α)}

theorem index_min' (hS : S.Nonempty) : (S.filter (· < S.min' hS)).card = 0 := by
  rw [Finset.card_eq_zero, Finset.filter_eq_empty_iff]
  exact fun x hx => not_lt.mpr (S.min'_le x hx)

theorem le_index_max' (hS : S.Nonempty) :
    S.card - 1 ≤ (S.filter (· < S.max' hS)).card := by
  rw [← Finset.card_erase_of_mem (S.max'_mem hS)]
  apply Finset.card_le_card
  intro x hx
  obtain ⟨hne, hx⟩ := Finset.mem_erase.mp hx
  exact Finset.mem_filter.mpr ⟨hx, lt_of_le_of_ne (S.le_max' x hx) hne⟩

theorem split_cases (hS : S.Nonempty) :
    (S.card = 1 ∧ Split S = [S]) ∨
      ∃ LHS RHS, Split S = [LHS, RHS] ∧ LHS.Nonempty ∧ RHS.Nonempty ∧ Disjoint LHS RHS ∧
        LHS ∪ RHS = S := by
  have hpos := hS.card_pos
  have hright : (S.filter fun x => ¬(S.filter (· < x)).card < S.card / 2).Nonempty := by
    have hlast := le_index_max' hS
    exact ⟨S.max' hS, Finset.mem_filter.mpr ⟨S.max'_mem hS, by omega⟩⟩
  unfold Split
  dsimp only
  rw [if_pos hright]
  by_cases hone : S.card = 1
  · left
    refine ⟨hone, ?_⟩
    rw [hone]
    simp
  · right
    have hleft : (S.filter fun x => (S.filter (· < x)).card < S.card / 2).Nonempty := by
      have hfirst := index_min' hS
      exact ⟨S.min' hS, Finset.mem_filter.mpr ⟨S.min'_mem hS, by omega⟩⟩
    rw [if_pos hleft]
    exact ⟨_, _, rfl, hleft, hright, Finset.disjoint_filter_filter_not _ _ _,
      Finset.filter_union_filter_not_eq _ _⟩

theorem split_empty : Split (∅ : Finset α) = [] := by simp [Split]

omit [LinearOrder α] in
theorem Partition.singleton (hS : S.Nonempty) : Partition S [S] :=
  ⟨by simpa using hS, by simp, by simp⟩

theorem split_partition (S : Finset α) : Partition S (Split S) := by
  rcases S.eq_empty_or_nonempty with rfl | hS
  · rw [split_empty]
    exact ⟨by simp, by simp, by simp⟩
  · rcases split_cases hS with ⟨-, h⟩ | ⟨LHS, RHS, h, hL, hR, hd, rfl⟩
    · rw [h]
      exact Partition.singleton hS
    · rw [h]
      exact (Partition.singleton hL).append (Partition.singleton hR) hd

theorem split_length (hS : S.Nonempty) :
    (S.card = 1 ∧ (Split S).length = 1) ∨ (Split S).length = 2 := by
  rcases split_cases hS with ⟨hcard, h⟩ | ⟨LHS, RHS, h, -⟩
  · exact Or.inl ⟨hcard, by rw [h]; rfl⟩
  · exact Or.inr (by rw [h]; rfl)

theorem Partition.split (h : Partition C Sets) : Partition C (Sets.flatMap Split) := by
  induction Sets generalizing C with
  | nil => exact h
  | cons S Sets ih =>
    have hsub := h.subset List.mem_cons_self
    have happ := (split_partition S).append (ih h.sdiff) Finset.disjoint_sdiff
    rwa [Finset.union_sdiff_of_subset hsub] at happ

theorem Partition.length_split (h : Partition C Sets) :
    Sets.length ≤ (Sets.flatMap Split).length ∧
      ((Sets.flatMap Split).length = Sets.length → ∀ S ∈ Sets, S.card = 1) := by
  induction Sets generalizing C with
  | nil => exact ⟨Nat.le_refl _, fun _ => by simp⟩
  | cons S Sets ih =>
    obtain ⟨hle, hone⟩ := ih h.sdiff
    have hS := split_length (h.nonempty S List.mem_cons_self)
    rw [List.flatMap_cons, List.length_append, List.length_cons]
    refine ⟨by omega, fun heq => ?_⟩
    rw [List.forall_mem_cons]
    exact ⟨by omega, hone (by omega)⟩

end Split

/-! ## Tests -/

/-- On subsets of `U` the test decides `P`, and preserves what its state says of the tests. -/
def Decides (U : Finset α) (P : Finset α → Bool) (I : List (Finset α) → τ → Prop) : Prop :=
  ∀ S ⊆ U, ∀ L t, I L t → (ExecuteOneTest S t).1 = P S ∧ I (S :: L) (ExecuteOneTest S t).2

/-- The cache holds the tests that failed, each of which was executed once. -/
structure Tested (P : Finset α → Bool) (I : List (Finset α) → τ → Prop) (s : State α τ) :
    Prop where
  cache : ∀ S, S ∈ s.FailedTestsCache ↔ S ∈ s.Executed ∧ P S = false
  once : (s.Executed.filter fun S => !P S).Nodup
  client : I s.Executed s.client

/-- What the algorithm returns for `Changes`. -/
structure Minimized (P : Finset α → Bool) (I : List (Finset α) → τ → Prop) (Changes : Finset α)
    (s : State α τ) (Res : Finset α) (s' : State α τ) : Prop where
  subset : Res ⊆ Changes
  passes : P Res = true
  minimal : ∀ r ∈ Res, P (Res.erase r) = false
  tested : Tested P I s'
  grows : s.Executed ⊆ s'.Executed
  executed : Res = Changes ∨ Res ∈ s'.Executed

section Minimize

variable {ExecuteOneTest} {U C S : Finset α} {P : Finset α → Bool}
  {I : List (Finset α) → τ → Prop} {s : State α τ}

theorem GetTestResult_spec (hdecides : Decides ExecuteOneTest U P I) (hs : Tested P I s)
    (hS : S ⊆ U) :
    (GetTestResult ExecuteOneTest S s).1 = P S ∧
      Tested P I (GetTestResult ExecuteOneTest S s).2 ∧
      s.Executed ⊆ (GetTestResult ExecuteOneTest S s).2.Executed ∧
      S ∈ (GetTestResult ExecuteOneTest S s).2.Executed := by
  unfold GetTestResult
  by_cases hcached : S ∈ s.FailedTestsCache
  · obtain ⟨hrun, hfail⟩ := (hs.cache S).mp hcached
    rw [if_pos hcached]
    exact ⟨hfail.symm, hs, List.Subset.refl _, hrun⟩
  · obtain ⟨hresult, hclient⟩ := hdecides S hS s.Executed s.client hs.client
    rw [if_neg hcached]
    dsimp only
    rw [hresult]
    refine ⟨rfl, ⟨?_, ?_, hclient⟩, List.subset_cons_self _ _, List.mem_cons_self⟩
    · intro T
      cases hP : P S with
      | true =>
        simp only [if_true, hs.cache T, List.mem_cons]
        constructor
        · exact fun h => ⟨Or.inr h.1, h.2⟩
        · rintro ⟨rfl | hT, hfail⟩
          · rw [hP] at hfail
            cases hfail
          · exact ⟨hT, hfail⟩
      | false =>
        simp only [Bool.false_eq_true, if_false, Finset.mem_insert, hs.cache T, List.mem_cons]
        constructor
        · rintro (rfl | h)
          · exact ⟨Or.inl rfl, hP⟩
          · exact ⟨Or.inr h.1, h.2⟩
        · rintro ⟨rfl | hT, hfail⟩
          · exact Or.inl rfl
          · exact Or.inr ⟨hT, hfail⟩
    · cases hP : P S with
      | true => simpa [List.filter_cons, hP] using hs.once
      | false =>
        have hnew : S ∉ s.Executed := fun hmem => hcached ((hs.cache S).mpr ⟨hmem, hP⟩)
        simpa [List.filter_cons, hP, hnew] using hs.once

theorem Minimized.widen {S Res : Finset α} {t s' : State α τ} (h : Minimized P I S t Res s')
    (hS : S ⊆ C) (hrun : S ∈ t.Executed) (hgrows : s.Executed ⊆ t.Executed) :
    Minimized P I C s Res s' where
  subset := h.subset.trans hS
  passes := h.passes
  minimal := h.minimal
  tested := h.tested
  grows := List.Subset.trans hgrows h.grows
  executed := Or.inr <| by
    rcases h.executed with rfl | hmem
    · exact h.grows hrun
    · exact hmem

/-- What `Search` needs of `Delta`: it minimizes what is closer to single changes. -/
def Minimizes (Delta : Finset α → List (Finset α) → State α τ → Option (Finset α × State α τ))
    (U : Finset α) (P : Finset α → Bool) (I : List (Finset α) → τ → Prop) (bound : ℕ) : Prop :=
  ∀ C Sets s, C ⊆ U → P C = true → Partition C Sets → (Sets.length ≤ 1 → C.card ≤ 1) →
    2 * C.card < bound + Sets.length → Tested P I s →
    ∃ Res s', Delta C Sets s = some (Res, s') ∧ Minimized P I C s Res s'

variable {D : Finset α → List (Finset α) → State α τ → Option (Finset α × State α τ)}
  {before rest : List (Finset α)} {fuel : ℕ}

theorem Search_spec (hdecides : Decides ExecuteOneTest U P I) (hD : Minimizes D U P I fuel)
    (hC : C ⊆ U) (hpart : Partition C (before ++ rest)) (htwo : 1 < (before ++ rest).length)
    (hfuel : 2 * C.card ≤ fuel + (before ++ rest).length) (hs : Tested P I s) :
    (∃ Res s', Search ExecuteOneTest D C before rest s = some (some Res, s') ∧
      Minimized P I C s Res s') ∨
    ∃ s', Search ExecuteOneTest D C before rest s = some (none, s') ∧ Tested P I s' ∧
      s.Executed ⊆ s'.Executed ∧ ∀ S ∈ rest, P S = false ∧
        (2 < (before ++ rest).length → P (C \ S) = false) := by
  induction rest generalizing before s with
  | nil => exact Or.inr ⟨s, rfl, hs, List.Subset.refl _, by simp⟩
  | cons S rest ih =>
    have hfront : Partition C (S :: (before ++ rest)) := hpart.perm List.perm_middle
    have hsub : S ⊆ C := hfront.subset List.mem_cons_self
    have hcard := hfront.card_cons
    have hothers := hfront.sdiff.length_le
    have hSpos := (hfront.nonempty S List.mem_cons_self).card_pos
    have hlen : (before ++ S :: rest).length = (before ++ rest).length + 1 :=
      List.perm_middle.length_eq
    obtain ⟨hpassed, hs₁, hgrows₁, hrun₁⟩ := GetTestResult_spec hdecides hs (hsub.trans hC)
    unfold Search
    rcases htest : GetTestResult ExecuteOneTest S s with ⟨passed, s₁⟩
    rw [htest] at hpassed hs₁ hgrows₁ hrun₁
    dsimp only at hpassed hs₁ hgrows₁ hrun₁ ⊢
    cases hS : P S with
    | true =>
      have hsplit := split_length (hfront.nonempty S List.mem_cons_self)
      obtain ⟨Res, s', hrun, hmin⟩ := hD S (Split S) s₁ (hsub.trans hC) hS (split_partition S)
        (by omega) (by omega) hs₁
      rw [if_pos (hpassed.trans hS), hrun]
      exact Or.inl ⟨Res, s', rfl, hmin.widen hsub hrun₁ hgrows₁⟩
    | false =>
      rw [if_neg (by rw [hpassed, hS]; exact Bool.false_ne_true)]
      have hassoc : before ++ [S] ++ rest = before ++ S :: rest := by simp
      have next : ∀ s₂, Tested P I s₂ → s.Executed ⊆ s₂.Executed →
          (2 < (before ++ S :: rest).length → P (C \ S) = false) →
          (∃ Res s', Search ExecuteOneTest D C (before ++ [S]) rest s₂ = some (some Res, s') ∧
            Minimized P I C s Res s') ∨
          ∃ s', Search ExecuteOneTest D C (before ++ [S]) rest s₂ = some (none, s') ∧
            Tested P I s' ∧ s.Executed ⊆ s'.Executed ∧ ∀ T ∈ S :: rest, P T = false ∧
              (2 < (before ++ S :: rest).length → P (C \ T) = false) := by
        intro s₂ hs₂ hgrows₂ hcompl
        have hrest := ih (hassoc ▸ hpart) (hassoc ▸ htwo) (hassoc ▸ hfuel) hs₂
        rw [hassoc] at hrest
        rcases hrest with ⟨Res, s', hrun, hmin⟩ | ⟨s', hrun, hs', hgrows', hall⟩
        · exact Or.inl ⟨Res, s', hrun, { hmin with grows := List.Subset.trans hgrows₂ hmin.grows }⟩
        · exact Or.inr ⟨s', hrun, hs', List.Subset.trans hgrows₂ hgrows',
            List.forall_mem_cons.mpr ⟨⟨hS, hcompl⟩, hall⟩⟩
      by_cases hmany : (before ++ S :: rest).length > 2
      · rw [if_pos hmany]
        obtain ⟨hpassed', hs₂, hgrows₂, hrun₂⟩ :=
          GetTestResult_spec hdecides hs₁ (Finset.sdiff_subset.trans hC : C \ S ⊆ U)
        rcases htest' : GetTestResult ExecuteOneTest (C \ S) s₁ with ⟨passed', s₂⟩
        rw [htest'] at hpassed' hs₂ hgrows₂ hrun₂
        cases hrest : P (C \ S) with
        | true =>
          obtain ⟨Res, s', hrun, hmin⟩ := hD (C \ S) (before ++ rest) s₂
            (Finset.sdiff_subset.trans hC) hrest hfront.sdiff (by omega) (by omega) hs₂
          rw [if_pos (hpassed'.trans hrest), hrun]
          exact Or.inl ⟨Res, s', rfl,
            hmin.widen Finset.sdiff_subset hrun₂ (List.Subset.trans hgrows₁ hgrows₂)⟩
        | false =>
          rw [if_neg (by rw [hpassed', hrest]; exact Bool.false_ne_true)]
          exact next s₂ hs₂ (List.Subset.trans hgrows₁ hgrows₂) fun _ => hrest
      · rw [if_neg hmany]
        exact next s₁ hs₁ hgrows₁ fun h => absurd h hmany

theorem Partition.length_two {Sets : List (Finset α)} (h : Partition C Sets)
    (htwo : Sets.length = 2) (hS : S ∈ Sets) : C \ S ∈ Sets := by
  have other : ∀ {A B : Finset α}, Partition C [A, B] → C \ A = B := fun hAB => by
    ext x
    simp [hAB.sdiff.mem_iff x]
  obtain ⟨A, B, rfl⟩ := List.length_eq_two.mp htwo
  rcases List.mem_pair.mp hS with rfl | rfl
  · simp [other h]
  · simp [other (h.perm (List.Perm.swap S A []))]

theorem minimal_of_fail {Sets : List (Finset α)} (hpart : Partition C Sets)
    (htwo : 1 < Sets.length) (hone : ∀ S ∈ Sets, S.card = 1)
    (hfail : ∀ S ∈ Sets, P S = false ∧ (2 < Sets.length → P (C \ S) = false)) :
    ∀ r ∈ C, P (C.erase r) = false := by
  intro r hr
  obtain ⟨S, hS, hrS⟩ := (hpart.mem_iff r).mp hr
  have hsingle : S = {r} := by
    obtain ⟨x, rfl⟩ := Finset.card_eq_one.mp (hone S hS)
    rw [Finset.mem_singleton.mp hrS]
  rw [← Finset.sdiff_singleton_eq_erase, ← hsingle]
  by_cases hmany : 2 < Sets.length
  · exact (hfail S hS).2 hmany
  · exact (hfail _ (hpart.length_two (by omega) hS)).1

theorem Delta_spec (hdecides : Decides ExecuteOneTest U P I) (hempty : P ∅ = false) :
    Minimizes (Delta ExecuteOneTest fuel) U P I fuel := by
  induction fuel with
  | zero =>
    intro C Sets s _ _ hpart _ hfuel _
    have hlen := hpart.length_le
    omega
  | succ fuel ih =>
    intro C Sets s hC hP hpart hsingle hfuel hs
    unfold Delta
    by_cases hdone : Sets.length ≤ 1
    · rw [if_pos hdone]
      refine ⟨C, s, rfl, Finset.Subset.refl C, hP, ?_, hs, List.Subset.refl _, Or.inl rfl⟩
      intro r hr
      have hcard := Finset.card_erase_of_mem hr
      rw [Finset.card_eq_zero.mp (by have := hsingle hdone; omega : (C.erase r).card = 0)]
      exact hempty
    · rw [if_neg hdone]
      have hwhole : Partition C ([] ++ Sets) := hpart
      rcases Search_spec hdecides ih hC hwhole (by simpa using hdone)
          (by simp only [List.nil_append]; omega) hs with
        ⟨Res, s', hrun, hmin⟩ | ⟨s', hrun, hs', hgrows, hfail⟩
      · rw [hrun]
        exact ⟨Res, s', rfl, hmin⟩
      · rw [hrun]
        simp only [Option.bind_eq_bind, Option.bind_some]
        obtain ⟨hle, hone⟩ := hpart.length_split
        by_cases hsame : (Sets.flatMap Split).length = Sets.length
        · rw [if_pos hsame]
          exact ⟨C, s', rfl, Finset.Subset.refl C, hP,
            minimal_of_fail hpart (by omega) (hone hsame) hfail, hs', hgrows, Or.inl rfl⟩
        · rw [if_neg hsame]
          obtain ⟨Res, s'', hrun', hmin⟩ := ih C (Sets.flatMap Split) s' hC hP hpart.split
            (by omega) (by omega) hs'
          exact ⟨Res, s'', hrun', { hmin with grows := List.Subset.trans hgrows hmin.grows }⟩

theorem Run_spec {Changes : Finset α} (hdecides : Decides ExecuteOneTest Changes P I)
    (hP : P Changes = true) (hs : Tested P I s) :
    ∃ Res s', Run ExecuteOneTest Changes s = some (Res, s') ∧ Minimized P I Changes s Res s' := by
  obtain ⟨hpassed, hs₁, hgrows, hrun⟩ :=
    GetTestResult_spec hdecides hs (Finset.empty_subset Changes)
  unfold Run
  rcases htest : GetTestResult ExecuteOneTest ∅ s with ⟨passed, s₁⟩
  rw [htest] at hpassed hs₁ hgrows hrun
  dsimp only at hpassed hs₁ hgrows hrun ⊢
  cases hempty : P ∅ with
  | true =>
    rw [if_pos (hpassed.trans hempty)]
    exact ⟨∅, s₁, rfl, Finset.empty_subset Changes, hempty, by simp, hs₁, hgrows, Or.inr hrun⟩
  | false =>
    rw [if_neg (by rw [hpassed, hempty]; exact Bool.false_ne_true)]
    have hne : Changes.Nonempty := by
      rw [Finset.nonempty_iff_ne_empty]
      rintro rfl
      rw [hP] at hempty
      cases hempty
    have hsplit := split_length hne
    have hDelta : Minimizes (Delta ExecuteOneTest (2 * Changes.card)) Changes P I _ :=
      Delta_spec hdecides hempty
    obtain ⟨Res, s', hrun', hmin⟩ := hDelta Changes (Split Changes) s₁ (Finset.Subset.refl _) hP
      (split_partition Changes) (by omega) (by omega) hs₁
    exact ⟨Res, s', hrun', { hmin with grows := List.Subset.trans hgrows hmin.grows }⟩

end Minimize

/-- A test without a state of its own. -/
def ofPredicate (P : Finset α → Bool) (Changes : Finset α) (_ : Unit) : Bool × Unit :=
  (P Changes, ())

example : (Run (ofPredicate fun S : Finset ℕ => decide (2 ∈ S ∧ 5 ∈ S)) {1, 2, 3, 5, 8}
    (start ())).map Prod.fst = some {2, 5} := by decide

/-- The result passes and is minimal, and no failed test is executed again. -/
theorem run_minimal (P : Finset α → Bool) (Changes : Finset α) (hP : P Changes = true) :
    ∃ Res s, Run (ofPredicate P) Changes (start ()) = some (Res, s) ∧ Res ⊆ Changes ∧ P Res = true ∧
      (∀ r ∈ Res, P (Res.erase r) = false) ∧ (s.Executed.filter fun S => !P S).Nodup := by
  have hdecides : Decides (ofPredicate P) Changes P fun _ _ => True :=
    fun _ _ _ _ _ => ⟨rfl, trivial⟩
  have hstart : Tested P (fun _ _ => True) (start () : State α Unit) :=
    ⟨fun S => by simp [start], List.nodup_nil, trivial⟩
  obtain ⟨Res, s, hrun, hmin⟩ := Run_spec hdecides hP hstart
  exact ⟨Res, s, hrun, hmin.subset, hmin.passes, hmin.minimal, hmin.tested.once⟩

theorem run_minimal_even :
    ∃ Res s, Run (ofPredicate fun S : Finset ℕ => decide (2 ∣ S.card)) {1, 2, 3, 5}
        (start ()) = some (Res, s) ∧ Res ⊆ {1, 2, 3, 5} ∧ decide (2 ∣ Res.card) = true ∧
      (∀ r ∈ Res, decide (2 ∣ (Res.erase r).card) = false) ∧
      (s.Executed.filter fun S => !decide (2 ∣ S.card)).Nodup :=
  run_minimal (fun S => decide (2 ∣ S.card)) {1, 2, 3, 5} (by decide)

end SmlnjLlvm.DeltaAlgorithm
