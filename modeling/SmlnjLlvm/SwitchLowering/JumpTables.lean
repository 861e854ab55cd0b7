import Mathlib.Logic.Function.Basic
import SmlnjLlvm.Library.SuffixPartitions
import SmlnjLlvm.Support.BranchProbability

/-!
# Partitions of case clusters into jump tables

The clusters are cut into as few parts as possible, where a part is one cluster
or is suitable for a jump table. The table of the best partitions is filled from
the last cluster to the first. An assertion that fails is no result.
-/

namespace SmlnjLlvm.SwitchLowering

open Support SuffixPartitions

variable {w : Nat}

/-- The values from `Low` to `High`, with the probability that one of them is taken. -/
structure CaseCluster (w : Nat) where
  Low : BitVec w
  High : BitVec w
  Prob : BranchProbability

def getLimitedValue (V : BitVec w) (Limit : Nat) : Nat := min V.toNat Limit

def totalCases (before : Nat) : List (CaseCluster w) → List Nat
  | [] => []
  | C :: Clusters =>
    let Total := (getLimitedValue (C.High - C.Low) (2 ^ 64 - 1) + 1 + before) % 2 ^ 32
    Total :: totalCases Total Clusters

def getJumpTableRange (Clusters : List (CaseCluster w)) (First Last : Nat) : Option Nat := do
  guard (First ≤ Last)
  let LowCase := (← Clusters[First]?).Low
  let HighCase := (← Clusters[Last]?).High
  return getLimitedValue (HighCase - LowCase) ((2 ^ 64 - 1 - 1) / 100) + 1

def getJumpTableNumCases (TotalCases : List Nat) (First Last : Nat) : Option Nat := do
  guard (First ≤ Last)
  guard ((← TotalCases[First]?) ≤ (← TotalCases[Last]?))
  return (← TotalCases[Last]?) - (← if First = 0 then some 0 else TotalCases[First - 1]?)

def suitablePart (isSuitableForJumpTable : Nat → Nat → Bool) (Clusters : List (CaseCluster w))
    (First Last : Nat) : Option Bool := do
  let Range ← getJumpTableRange Clusters First Last
  let NumCases ← getJumpTableNumCases (totalCases 0 Clusters) First Last
  guard (NumCases < (2 ^ 64 - 1) / 100)
  guard (NumCases ≤ Range)
  return isSuitableForJumpTable NumCases Range

/-- The arrays of `findJumpTables`. -/
structure PartitionTable where
  MinPartitions : Nat → Nat
  LastElement : Nat → Nat
  PartitionsScore : Nat → Nat

def PartitionTable.set (T : PartitionTable) (i NumPartitions Last Score : Nat) : PartitionTable :=
  ⟨Function.update T.MinPartitions i NumPartitions, Function.update T.LastElement i Last,
    Function.update T.PartitionsScore i Score⟩

namespace PartitionScores

def NoTable : Nat := 0

def Table : Nat := 1

def FewCases : Nat := 1

def SingleCase : Nat := 2

end PartitionScores

def partScore (MinJumpTableEntries NumEntries : Nat) : Nat :=
  let SmallNumberOfEntries := MinJumpTableEntries / 2
  if NumEntries = 1 then PartitionScores.SingleCase
  else if NumEntries ≤ SmallNumberOfEntries then PartitionScores.FewCases
  else if MinJumpTableEntries ≤ NumEntries then PartitionScores.Table
  else PartitionScores.NoTable

section Loops

variable (N MinJumpTableEntries : Nat) (suitable : Nat → Nat → Option Bool)

def tryPart (i j : Nat) (T : PartitionTable) : Option PartitionTable := do
  if ← suitable i j then
    let NumPartitions := 1 + if j = N - 1 then 0 else T.MinPartitions (j + 1)
    let Score := (if j = N - 1 then 0 else T.PartitionsScore (j + 1)) +
      partScore MinJumpTableEntries (j - i + 1)
    if NumPartitions < T.MinPartitions i ∨
        NumPartitions = T.MinPartitions i ∧ T.PartitionsScore i < Score then
      return T.set i NumPartitions j Score
    else return T
  else return T

def tryParts (i : Nat) : Nat → PartitionTable → Option PartitionTable
  | 0, T => some T
  | j + 1, T =>
    if i < j + 1 then do
      let T ← tryPart N MinJumpTableEntries suitable i (j + 1) T
      tryParts i j T
    else some T

def fillTable : Nat → PartitionTable → Option PartitionTable
  | 0, T => some T
  | i + 1, T => do
    let T := T.set i (T.MinPartitions (i + 1) + 1) i
      (T.PartitionsScore (i + 1) + PartitionScores.SingleCase)
    let T ← tryParts N MinJumpTableEntries suitable i (N - 1) T
    fillTable i T

end Loops

def minPartitions (MinJumpTableEntries : Nat) (isSuitableForJumpTable : Nat → Nat → Bool)
    (Clusters : List (CaseCluster w)) : Option PartitionTable :=
  let N := Clusters.length
  let T : PartitionTable := ⟨fun _ => 0, fun _ => 0, fun _ => 0⟩
  let T := T.set (N - 1) 1 (N - 1) PartitionScores.SingleCase
  fillTable N MinJumpTableEntries (suitablePart isSuitableForJumpTable Clusters) (N - 1) T

def partitions (Clusters : List (CaseCluster w)) (T : PartitionTable) : Option (List (Nat × Nat)) :=
  follow Clusters.length T.LastElement 0

/-! ## The loops solve the table -/

section Solving

variable {N MinJumpTableEntries i j : Nat} {suitable : Nat → Nat → Option Bool}
  {P : Nat → Nat → Prop} {T : PartitionTable}

def PartitionTable.value (T : PartitionTable) (N k : Nat) : Nat × Nat :=
  if k = N then (0, 0) else (T.MinPartitions k, T.PartitionsScore k)

def IsPart (P : Nat → Nat → Prop) (i j : Nat) : Prop := i = j ∨ P i j

abbrev Solved (N MinJumpTableEntries : Nat) (P : Nat → Nat → Prop) (T : PartitionTable) (i : Nat) :
    Prop :=
  Solves N (IsPart P) (partScore MinJumpTableEntries) (T.value N) T.LastElement i

/-- The entry at `i` has the value of its part, and is as good as the baseline and as the parts
that end after `j`. -/
structure Searched (N MinJumpTableEntries : Nat) (P : Nat → Nat → Prop) (T : PartitionTable)
    (i j : Nat) : Prop where
  later : Solved N MinJumpTableEntries P T (i + 1)
  last_mem : i ≤ T.LastElement i ∧ T.LastElement i < N ∧ IsPart P i (T.LastElement i)
  reached : T.value N i = withPart (partScore MinJumpTableEntries) i (T.LastElement i)
    (T.value N (T.LastElement i + 1))
  baseline : AsGood (T.value N i) (withPart (partScore MinJumpTableEntries) i i (T.value N (i + 1)))
  asGood : ∀ k, j < k → k < N → i < k → P i k →
    AsGood (T.value N i) (withPart (partScore MinJumpTableEntries) i k (T.value N (k + 1)))

theorem value_set_of_ne {k m l s : Nat} (h : k ≠ i) : (T.set i m l s).value N k = T.value N k := by
  unfold PartitionTable.value PartitionTable.set
  simp [Function.update_of_ne h]

theorem value_set_self {m l s : Nat} (h : i < N) : (T.set i m l s).value N i = (m, s) := by
  unfold PartitionTable.value PartitionTable.set
  rw [if_neg (Nat.ne_of_lt h)]
  simp

theorem LastElement_set_of_ne {k m l s : Nat} (h : k ≠ i) :
    (T.set i m l s).LastElement k = T.LastElement k := by
  simp [PartitionTable.set, Function.update_of_ne h]

theorem LastElement_set_self {m l s : Nat} : (T.set i m l s).LastElement i = l := by
  simp [PartitionTable.set]

theorem Solved.set {m l s : Nat} (h : Solved N MinJumpTableEntries P T (i + 1)) (hi : i < N) :
    Solved N MinJumpTableEntries P (T.set i m l s) (i + 1) :=
  h.congr (fun _ hk => value_set_of_ne (by omega)) (fun _ hk => LastElement_set_of_ne (by omega)) hi

theorem Searched.of_set {l : Nat} (h : Solved N MinJumpTableEntries P T (i + 1))
    (hl : i ≤ l ∧ l < N ∧ IsPart P i l) {m s : Nat}
    (hvalue : (m, s) = withPart (partScore MinJumpTableEntries) i l (T.value N (l + 1)))
    (hbaseline : AsGood (m, s) (withPart (partScore MinJumpTableEntries) i i (T.value N (i + 1))))
    (hgood : ∀ k, j < k → k < N → i < k → P i k →
      AsGood (m, s) (withPart (partScore MinJumpTableEntries) i k (T.value N (k + 1)))) :
    Searched N MinJumpTableEntries P (T.set i m l s) i j where
  later := h.set (by omega)
  last_mem := by rwa [LastElement_set_self]
  reached := by
    rw [value_set_self (by omega), LastElement_set_self, value_set_of_ne (by omega)]
    exact hvalue
  baseline := by
    rw [value_set_self (by omega), value_set_of_ne (by omega)]
    exact hbaseline
  asGood k hjk hkN hik hP := by
    rw [value_set_self (by omega), value_set_of_ne (by omega)]
    exact hgood k hjk hkN hik hP

theorem Searched.solved (h : Searched N MinJumpTableEntries P T i i) :
    Solved N MinJumpTableEntries P T i := by
  apply h.later.extend h.last_mem h.reached
  intro j hij hjN hpart
  rcases Nat.eq_or_lt_of_le hij with rfl | hlt
  · exact h.baseline
  · exact h.asGood j hlt hjN hlt (hpart.resolve_left (Nat.ne_of_lt hlt))

theorem value_succ (hjN : j < N) : T.value N (j + 1) =
    (if j = N - 1 then 0 else T.MinPartitions (j + 1),
      if j = N - 1 then 0 else T.PartitionsScore (j + 1)) := by
  unfold PartitionTable.value
  by_cases hlast : j = N - 1
  · rw [if_pos (by omega), if_pos hlast, if_pos hlast]
  · rw [if_neg (by omega), if_neg hlast, if_neg hlast]

variable (hsuitable : ∀ i j, i < j → j < N → ∃ b, suitable i j = some b ∧ (b = true ↔ P i j))
include hsuitable

theorem tryPart_searched (hij : i < j) (hjN : j < N)
    (h : Searched N MinJumpTableEntries P T i j) :
    ∃ T', tryPart N MinJumpTableEntries suitable i j T = some T' ∧
      Searched N MinJumpTableEntries P T' i (j - 1) := by
  obtain ⟨b, hb, hP⟩ := hsuitable i j hij hjN
  have hvalue := value_succ (T := T) hjN
  have hentry : T.value N i = (T.MinPartitions i, T.PartitionsScore i) :=
    if_neg (by omega)
  unfold tryPart
  rw [hb]
  dsimp only [Option.bind_eq_bind, Option.bind_some]
  cases b with
  | false =>
    refine ⟨T, rfl, h.later, h.last_mem, h.reached, h.baseline, fun k hk hkN hik hPk => ?_⟩
    have hne : k ≠ j := by
      rintro rfl
      exact Bool.false_ne_true (hP.mpr hPk)
    exact h.asGood k (by omega) hkN hik hPk
  | true =>
    rw [if_pos rfl]
    generalize hm : 1 + (if j = N - 1 then 0 else T.MinPartitions (j + 1)) = m
    generalize hs : (if j = N - 1 then 0 else T.PartitionsScore (j + 1)) +
      partScore MinJumpTableEntries (j - i + 1) = s
    have hcandidate : (m, s) =
        withPart (partScore MinJumpTableEntries) i j (T.value N (j + 1)) := by
      rw [hvalue, ← hm, ← hs, withPart, show j - i + 1 = j + 1 - i by omega]
    split
    · next hbetter =>
      have hgood : AsGood (m, s) (T.value N i) := by
        rw [hentry]
        unfold AsGood
        omega
      refine ⟨_, rfl, Searched.of_set h.later ⟨by omega, hjN, Or.inr (hP.mp rfl)⟩ hcandidate
        (hgood.trans h.baseline) fun k hk hkN hik hPk => ?_⟩
      rcases Nat.eq_or_lt_of_le (show j ≤ k by omega) with rfl | hlt
      · rw [hcandidate]
        exact AsGood.refl _
      · exact hgood.trans (h.asGood k hlt hkN hik hPk)
    · next hworse =>
      refine ⟨T, rfl, h.later, h.last_mem, h.reached, h.baseline, fun k hk hkN hik hPk => ?_⟩
      rcases Nat.eq_or_lt_of_le (show j ≤ k by omega) with rfl | hlt
      · rw [← hcandidate, hentry]
        unfold AsGood
        omega
      · exact h.asGood k hlt hkN hik hPk

theorem tryParts_searched (hij : i ≤ j) (hjN : j < N)
    (h : Searched N MinJumpTableEntries P T i j) :
    ∃ T', tryParts N MinJumpTableEntries suitable i j T = some T' ∧
      Searched N MinJumpTableEntries P T' i i := by
  induction j generalizing T with
  | zero =>
    obtain rfl : i = 0 := by omega
    exact ⟨T, rfl, h⟩
  | succ j ih =>
    unfold tryParts
    by_cases hlt : i < j + 1
    · obtain ⟨T₁, hrun, h₁⟩ := tryPart_searched hsuitable hlt hjN h
      obtain ⟨T', hrest, h'⟩ := ih (by omega) (by omega) h₁
      refine ⟨T', ?_, h'⟩
      rw [if_pos hlt, hrun]
      exact hrest
    · obtain rfl : i = j + 1 := by omega
      exact ⟨T, if_neg hlt, h⟩

theorem fillTable_solved (hiN : i < N) (h : Solved N MinJumpTableEntries P T i) :
    ∃ T', fillTable N MinJumpTableEntries suitable i T = some T' ∧
      Solved N MinJumpTableEntries P T' 0 := by
  induction i generalizing T with
  | zero => exact ⟨T, rfl, h⟩
  | succ i ih =>
    have hvalue : T.value N (i + 1) = (T.MinPartitions (i + 1), T.PartitionsScore (i + 1)) :=
      if_neg (by omega)
    have hsingle : (T.MinPartitions (i + 1) + 1,
        T.PartitionsScore (i + 1) + PartitionScores.SingleCase) =
          withPart (partScore MinJumpTableEntries) i i (T.value N (i + 1)) := by
      rw [hvalue, withPart, show i + 1 - i = 1 by omega, Nat.add_comm 1]
      rfl
    obtain ⟨T₁, hrun, h₁⟩ := tryParts_searched hsuitable (i := i) (j := N - 1) (by omega)
      (by omega) (Searched.of_set h ⟨Nat.le_refl i, by omega, Or.inl rfl⟩ hsingle
        (hsingle ▸ AsGood.refl _) fun k hk hkN _ _ => absurd hkN (by omega))
    obtain ⟨T', hrest, h'⟩ := ih (by omega) h₁.solved
    refine ⟨T', ?_, h'⟩
    unfold fillTable
    dsimp only [Option.bind_eq_bind]
    rw [hrun]
    exact hrest

end Solving

/-! ## Numbers of cases -/

def CaseCluster.numValues (C : CaseCluster w) : Nat := (C.High - C.Low).toNat + 1

/--
The clusters that the code is given: they are sorted and do not meet, and their
values are cases of one switch, whose operands are counted in 27 bits.
-/
structure SortedClusters (w : Nat) where
  clusters : List (CaseCluster w)
  nonempty : clusters ≠ []
  ordered : ∀ C ∈ clusters, C.Low.toInt ≤ C.High.toInt
  sorted : clusters.IsChain fun C D => C.High.slt D.Low = true
  few : (clusters.map CaseCluster.numValues).sum < 2 ^ 31

def casesOf (Clusters : List (CaseCluster w)) (i j : Nat) : Nat :=
  (((Clusters.drop i).take (j + 1 - i)).map CaseCluster.numValues).sum

def casesBefore (Clusters : List (CaseCluster w)) (i : Nat) : Nat :=
  ((Clusters.take i).map CaseCluster.numValues).sum

section Cases

variable {Clusters : List (CaseCluster w)} {i j : Nat} {C D : CaseCluster w}

theorem casesBefore_add (Clusters : List (CaseCluster w)) (hij : i ≤ j) :
    casesBefore Clusters (j + 1) = casesBefore Clusters i + casesOf Clusters i j := by
  unfold casesBefore casesOf
  rw [show j + 1 = i + (j + 1 - i) by omega, List.take_add, List.map_append, List.sum_append,
    Nat.add_sub_cancel_left]

theorem casesBefore_succ (hC : Clusters[i]? = some C) :
    casesBefore Clusters (i + 1) = casesBefore Clusters i + C.numValues := by
  unfold casesBefore
  rw [List.take_add_one, hC, List.map_append, List.sum_append]
  simp

theorem casesBefore_mono (Clusters : List (CaseCluster w)) (hij : i ≤ j) :
    casesBefore Clusters i ≤ casesBefore Clusters j := by
  cases j with
  | zero => rw [Nat.le_zero.mp hij]
  | succ j =>
    rcases Nat.eq_or_lt_of_le hij with rfl | hlt
    · exact Nat.le_refl _
    · rw [casesBefore_add Clusters (Nat.le_of_lt_succ hlt)]
      exact Nat.le_add_right _ _

theorem casesOf_pos (hij : i ≤ j) (hC : Clusters[i]? = some C) : 0 < casesOf Clusters i j := by
  have hmono := casesBefore_mono Clusters (show i + 1 ≤ j + 1 by omega)
  have hfirst := casesBefore_succ hC
  have hsum := casesBefore_add Clusters hij
  unfold CaseCluster.numValues at hfirst
  omega

theorem casesBefore_le (i : Nat) :
    casesBefore Clusters i ≤ (Clusters.map CaseCluster.numValues).sum := by
  unfold casesBefore
  calc ((Clusters.take i).map CaseCluster.numValues).sum
      ≤ ((Clusters.take i).map CaseCluster.numValues).sum +
        ((Clusters.drop i).map CaseCluster.numValues).sum := Nat.le_add_right _ _
    _ = (Clusters.map CaseCluster.numValues).sum := by
        rw [← List.sum_append, ← List.map_append, List.take_append_drop]

theorem totalCases_getElem? (before : Nat)
    (hfew : before + (Clusters.map CaseCluster.numValues).sum < 2 ^ 32) (hi : i < Clusters.length) :
    (totalCases before Clusters)[i]? = some (before + casesBefore Clusters (i + 1)) := by
  induction Clusters generalizing before i with
  | nil => exact absurd hi (Nat.not_lt_zero i)
  | cons C Clusters ih =>
    rw [List.map_cons, List.sum_cons] at hfew
    have hvalue : (getLimitedValue (C.High - C.Low) (2 ^ 64 - 1) + 1 + before) % 2 ^ 32 =
        before + C.numValues := by
      unfold getLimitedValue CaseCluster.numValues at *
      rw [Nat.min_eq_left (by omega), Nat.mod_eq_of_lt (by omega)]
      omega
    have hfirst : totalCases before (C :: Clusters) =
        (before + C.numValues) :: totalCases (before + C.numValues) Clusters := by
      rw [totalCases, hvalue]
    rw [hfirst]
    cases i with
    | zero => simp [casesBefore]
    | succ i =>
      rw [List.getElem?_cons_succ, ih (before + C.numValues) (by omega) (by simpa using hi)]
      unfold casesBefore
      rw [List.take_succ_cons, List.map_cons, List.sum_cons, Nat.add_assoc]

end Cases

theorem toNat_sub_of_toInt_le {a b : BitVec w} (hle : b.toInt ≤ a.toInt) :
    ((a - b).toNat : Int) = a.toInt - b.toInt := by
  have ha := Words.toInt_sign_cases a
  have hb := Words.toInt_sign_cases b
  have hsub := Words.toNat_sub_cases a b
  omega

namespace SortedClusters

variable (S : SortedClusters w) {i j : Nat} {C D : CaseCluster w}

theorem numValues_eq (hC : C ∈ S.clusters) :
    (C.numValues : Int) = C.High.toInt - C.Low.toInt + 1 := by
  unfold CaseCluster.numValues
  rw [Nat.cast_add, toNat_sub_of_toInt_le (S.ordered C hC)]
  rfl

theorem High_lt_Low (hC : S.clusters[i]? = some C) (hD : S.clusters[i + 1]? = some D) :
    C.High.toInt < D.Low.toInt := by
  obtain ⟨hi, rfl⟩ := List.getElem?_eq_some_iff.mp hC
  obtain ⟨hj, rfl⟩ := List.getElem?_eq_some_iff.mp hD
  exact BitVec.slt_iff_toInt_lt.mp (List.isChain_iff_getElem.mp S.sorted i hj)

theorem casesOf_le (hij : i ≤ j) (hC : S.clusters[i]? = some C) (hD : S.clusters[j]? = some D) :
    (casesOf S.clusters i j : Int) ≤ D.High.toInt - C.Low.toInt + 1 := by
  induction j, hij using Nat.le_induction generalizing D with
  | base =>
    obtain rfl : C = D := Option.some.inj (hC.symm.trans hD)
    have hcases := casesBefore_add S.clusters (Nat.le_refl i)
    rw [casesBefore_succ hC] at hcases
    rw [← S.numValues_eq (List.mem_of_getElem? hC)]
    omega
  | succ j hij ih =>
    obtain ⟨hj, -⟩ := List.getElem?_eq_some_iff.mp hD
    have hE := List.getElem?_eq_getElem (Nat.lt_of_succ_lt hj)
    have hearlier := ih hE
    have hgap := S.High_lt_Low hE hD
    have hlast := S.numValues_eq (List.mem_of_getElem? hD)
    have hfirst := casesBefore_add S.clusters hij
    have hboth := casesBefore_add S.clusters (show i ≤ j + 1 by omega)
    rw [casesBefore_succ hD, hfirst] at hboth
    omega

theorem Low_le_High (hij : i ≤ j) (hC : S.clusters[i]? = some C)
    (hD : S.clusters[j]? = some D) : C.Low.toInt ≤ D.High.toInt := by
  rcases Nat.eq_or_lt_of_le hij with rfl | hlt
  · obtain rfl : C = D := Option.some.inj (hC.symm.trans hD)
    exact S.ordered C (List.mem_of_getElem? hC)
  · have hcases := S.casesOf_le hij hC hD
    have hpos := casesOf_pos hij hC
    omega

theorem getJumpTableNumCases_eq (hij : i ≤ j) (hj : j < S.clusters.length) :
    getJumpTableNumCases (totalCases 0 S.clusters) i j = some (casesOf S.clusters i j) := by
  have hfew := S.few
  have htotal : ∀ k < S.clusters.length,
      (totalCases 0 S.clusters)[k]? = some (casesBefore S.clusters (k + 1)) := by
    intro k hk
    rw [totalCases_getElem? 0 (by omega) hk, Nat.zero_add]
  have hsum := casesBefore_add S.clusters hij
  have hmono := casesBefore_mono S.clusters (show i + 1 ≤ j + 1 by omega)
  unfold getJumpTableNumCases
  rw [htotal i (by omega), htotal j hj]
  cases i with
  | zero =>
    have hzero : casesBefore S.clusters 0 = 0 := by simp [casesBefore]
    simp [hmono]
    omega
  | succ i =>
    rw [Nat.add_sub_cancel, htotal i (by omega)]
    simp [hij, hmono]
    omega

theorem suitablePart_eq (isSuitableForJumpTable : Nat → Nat → Bool) (hij : i ≤ j)
    (hj : j < S.clusters.length) :
    ∃ Range, getJumpTableRange S.clusters i j = some Range ∧
      suitablePart isSuitableForJumpTable S.clusters i j =
        some (isSuitableForJumpTable (casesOf S.clusters i j) Range) := by
  have hC := List.getElem?_eq_getElem (Nat.lt_of_le_of_lt hij hj)
  have hD := List.getElem?_eq_getElem hj
  generalize S.clusters[i] = C at hC
  generalize S.clusters[j] = D at hD
  have hcases := S.casesOf_le hij hC hD
  have hrange := toNat_sub_of_toInt_le (S.Low_le_High hij hC hD)
  have hfew : casesOf S.clusters i j < 2 ^ 31 := by
    have hsum := casesBefore_add S.clusters hij
    have hall : casesBefore S.clusters (j + 1) ≤ _ := casesBefore_le (j + 1)
    have hfew := S.few
    omega
  have hrun : getJumpTableRange S.clusters i j =
      some (getLimitedValue (D.High - C.Low) ((2 ^ 64 - 1 - 1) / 100) + 1) := by
    unfold getJumpTableRange
    simp [hij, hC, hD]
  refine ⟨_, hrun, ?_⟩
  have hle : casesOf S.clusters i j ≤
      getLimitedValue (D.High - C.Low) ((2 ^ 64 - 1 - 1) / 100) + 1 := by
    unfold getLimitedValue
    omega
  have hlimit : casesOf S.clusters i j < (2 ^ 64 - 1) / 100 := by omega
  unfold suitablePart
  rw [hrun, S.getJumpTableNumCases_eq hij hj]
  dsimp only [Option.bind_eq_bind, Option.bind_some]
  rw [guard, if_pos hlimit, guard, if_pos hle]
  rfl

end SortedClusters

def Suitable (isSuitableForJumpTable : Nat → Nat → Bool) (Clusters : List (CaseCluster w))
    (i j : Nat) : Prop :=
  ∃ Range, getJumpTableRange Clusters i j = some Range ∧
    isSuitableForJumpTable (casesOf Clusters i j) Range = true

/-- Every cluster is in one part, in order, and a part with more than one is suitable. -/
structure Partition (isSuitableForJumpTable : Nat → Nat → Bool) (Clusters : List (CaseCluster w))
    (ps : List (Nat × Nat)) : Prop where
  places : ps.flatMap places = List.range Clusters.length
  parts : ∀ p ∈ ps, p.1 ≤ p.2 ∧ p.2 < Clusters.length ∧
    (p.1 = p.2 ∨ Suitable isSuitableForJumpTable Clusters p.1 p.2)

def totalScore (MinJumpTableEntries : Nat) (ps : List (Nat × Nat)) : Nat :=
  (ps.map fun p => partScore MinJumpTableEntries (p.2 + 1 - p.1)).sum

variable {MinJumpTableEntries : Nat} {isSuitableForJumpTable : Nat → Nat → Bool}

theorem partition_iff_covers {Clusters : List (CaseCluster w)} {ps : List (Nat × Nat)} :
    Partition isSuitableForJumpTable Clusters ps ↔ Covers Clusters.length
      (IsPart (Suitable isSuitableForJumpTable Clusters)) 0 ps := by
  rw [covers_iff, Nat.sub_zero, ← List.range_eq_range']
  exact ⟨fun h => ⟨Nat.zero_le _, h.places, h.parts⟩, fun ⟨_, hplaces, hparts⟩ => ⟨hplaces, hparts⟩⟩

theorem SortedClusters.suitablePart_iff (S : SortedClusters w)
    (isSuitableForJumpTable : Nat → Nat → Bool) (i j : Nat) (hij : i < j)
    (hj : j < S.clusters.length) :
    ∃ b, suitablePart isSuitableForJumpTable S.clusters i j = some b ∧
      (b = true ↔ Suitable isSuitableForJumpTable S.clusters i j) := by
  obtain ⟨Range, hrange, hpart⟩ := S.suitablePart_eq isSuitableForJumpTable (Nat.le_of_lt hij) hj
  refine ⟨_, hpart, fun h => ⟨Range, hrange, h⟩, ?_⟩
  rintro ⟨Range', hrange', h⟩
  obtain rfl : Range = Range' := Option.some.inj (hrange.symm.trans hrange')
  exact h

theorem base_solved {N : Nat} {P : Nat → Nat → Prop} (hN : 0 < N) :
    Solved N MinJumpTableEntries P ((⟨fun _ => 0, fun _ => 0, fun _ => 0⟩ : PartitionTable).set
      (N - 1) 1 (N - 1) PartitionScores.SingleCase) (N - 1) := by
  have hempty : Solved N MinJumpTableEntries P ⟨fun _ => 0, fun _ => 0, fun _ => 0⟩ (N - 1 + 1) :=
    ⟨by simp [PartitionTable.value], fun k hk hkN => by omega, fun k hk hkN => by omega,
      fun k hk hkN => by omega⟩
  have hlast : ((1, PartitionScores.SingleCase) : Nat × Nat) =
      withPart (partScore MinJumpTableEntries) (N - 1) (N - 1)
        ((⟨fun _ => 0, fun _ => 0, fun _ => 0⟩ : PartitionTable).value N (N - 1 + 1)) := by
    rw [show N - 1 + 1 = N by omega, hempty.empty, withPart, Nat.add_sub_cancel_left]
    rfl
  exact Searched.solved (Searched.of_set hempty ⟨Nat.le_refl _, by omega, Or.inl rfl⟩ hlast
    (hlast ▸ AsGood.refl _) fun k hk hkN _ _ => absurd hkN (by omega))

/--
The partition that the table describes holds every cluster once and in order,
has as few parts as possible, and the greatest score among those.
-/
theorem minPartitions_optimal (S : SortedClusters w) (MinJumpTableEntries : Nat)
    (isSuitableForJumpTable : Nat → Nat → Bool) :
    ∃ T ps, minPartitions MinJumpTableEntries isSuitableForJumpTable S.clusters = some T ∧
      partitions S.clusters T = some ps ∧ Partition isSuitableForJumpTable S.clusters ps ∧
      ∀ qs, Partition isSuitableForJumpTable S.clusters qs →
        ps.length ≤ qs.length ∧
        (ps.length = qs.length →
          totalScore MinJumpTableEntries qs ≤ totalScore MinJumpTableEntries ps) := by
  have hN : 0 < S.clusters.length := List.length_pos_iff.mpr S.nonempty
  have hbase {P : Nat → Nat → Prop} : Solved _ MinJumpTableEntries P _ _ := base_solved hN
  obtain ⟨T, hrun, hsolved⟩ := fillTable_solved (S.suitablePart_iff isSuitableForJumpTable)
    (by omega) hbase
  obtain ⟨ps, hfollow, hcovers, hcost⟩ := hsolved.follow_covers (Nat.le_refl 0) (Nat.zero_le _)
  refine ⟨T, ps, hrun, hfollow, partition_iff_covers.mpr hcovers, fun qs hqs => ?_⟩
  have hbest := hsolved.le_cost (Nat.le_refl 0) (partition_iff_covers.mp hqs)
  rw [← hcost] at hbest
  unfold AsGood cost at hbest
  unfold totalScore
  dsimp only at hbest
  omega

def threeClusters : SortedClusters 8 where
  clusters := [⟨1, 2, ⟨1⟩⟩, ⟨4, 4, ⟨1⟩⟩, ⟨100, 100, ⟨1⟩⟩]
  nonempty := by simp
  ordered := by decide
  sorted := by decide
  few := by decide

/-- The first two clusters are dense, and the last one is not near them. -/
theorem minPartitions_optimal_three : ∃ T ps,
    minPartitions 4 (fun NumCases Range => Range ≤ 2 * NumCases) threeClusters.clusters = some T ∧
      partitions threeClusters.clusters T = some ps ∧ ps.length ≤ 2 := by
  obtain ⟨T, ps, hrun, hps, -, hbest⟩ :=
    minPartitions_optimal threeClusters 4 fun NumCases Range => Range ≤ 2 * NumCases
  refine ⟨T, ps, hrun, hps, (hbest [(0, 1), (2, 2)] ⟨by decide, ?_⟩).1⟩
  simp only [List.forall_mem_cons, Suitable]
  exact ⟨⟨by decide, by decide, Or.inr ⟨4, by decide, by decide⟩⟩,
    ⟨by decide, by decide, Or.inl trivial⟩, by simp⟩

end SmlnjLlvm.SwitchLowering
