import Mathlib.Logic.Relation
import SmlnjLlvm.SwitchLowering.JumpTables

/-!
# The split of a work item

The clusters of a work item are cut in two so that the probabilities of the
sides are balanced, and a side with few clusters then takes clusters from the
other one. An assertion that fails is no result.
-/

namespace SmlnjLlvm.SwitchLowering

open Support

variable {w : Nat}

/-- The places of `LastLeft` and `FirstRight`, with the probabilities of the sides. -/
structure SplitWorkItemInfo where
  LastLeft : Nat
  FirstRight : Nat
  LeftProb : BranchProbability
  RightProb : BranchProbability

def ranksBefore (CC X : CaseCluster w) : Option Bool :=
  if X.Prob.N ≠ CC.Prob.N then X.Prob.gt CC.Prob
  else some (X.Low.slt CC.Low)

def caseClusterRank (CC : CaseCluster w) (Clusters : List (CaseCluster w)) (First Last : Nat) :
    Option Nat := do
  let ranks ← ((Clusters.drop First).take (Last + 1 - First)).mapM (ranksBefore CC)
  return ranks.count true

section Loops

variable (Clusters : List (CaseCluster w))

def balance (I : Nat) (S : SplitWorkItemInfo) : Option SplitWorkItemInfo :=
  if S.LastLeft + 1 < S.FirstRight then do
    if (← S.LeftProb.lt S.RightProb) ∨ (S.LeftProb.N = S.RightProb.N ∧ I &&& 1 ≠ 0) then
      let LeftProb ← S.LeftProb.add (← Clusters[S.LastLeft + 1]?).Prob
      balance (I + 1) { S with LastLeft := S.LastLeft + 1, LeftProb }
    else
      let RightProb ← S.RightProb.add (← Clusters[S.FirstRight - 1]?).Prob
      balance (I + 1) { S with FirstRight := S.FirstRight - 1, RightProb }
  else some S
termination_by S.FirstRight - S.LastLeft

def adjust (LastLeft FirstRight : Nat) : Option (Nat × Nat) :=
  let LastCluster := Clusters.length - 1
  let NumLeft := LastLeft + 1
  let NumRight := LastCluster - FirstRight + 1
  if hfew : min NumLeft NumRight < 3 ∧ 3 < max NumLeft NumRight then
    -- If one side has less than 3 clusters, and the other has more than 3,
    -- consider taking a cluster from the other side.
    if hleft : NumLeft < NumRight then do
      let CC ← Clusters[FirstRight]?
      let RightSideRank ← caseClusterRank CC Clusters FirstRight LastCluster
      let LeftSideRank ← caseClusterRank CC Clusters 0 LastLeft
      if LeftSideRank ≤ RightSideRank then adjust (LastLeft + 1) (FirstRight + 1)
      else return (LastLeft, FirstRight)
    else do
      guard (NumRight < NumLeft)
      let CC ← Clusters[LastLeft]?
      let LeftSideRank ← caseClusterRank CC Clusters 0 LastLeft
      let RightSideRank ← caseClusterRank CC Clusters FirstRight LastCluster
      if RightSideRank ≤ LeftSideRank then adjust (LastLeft - 1) (FirstRight - 1)
      else return (LastLeft, FirstRight)
  else return (LastLeft, FirstRight)
-- A move makes the sides more equal in size.
termination_by (LastLeft + 1 - (Clusters.length - 1 - FirstRight + 1)) +
  ((Clusters.length - 1 - FirstRight + 1) - (LastLeft + 1))
decreasing_by all_goals omega

end Loops

def computeSplitWorkItemInfo (Clusters : List (CaseCluster w)) (DefaultProb : BranchProbability) :
    Option SplitWorkItemInfo := do
  let LastCluster := Clusters.length - 1
  let LeftProb ← (← Clusters[0]?).Prob.add (← DefaultProb.div 2)
  let RightProb ← (← Clusters[LastCluster]?).Prob.add (← DefaultProb.div 2)
  let S ← balance Clusters 0 ⟨0, LastCluster, LeftProb, RightProb⟩
  let (LastLeft, FirstRight) ← adjust Clusters S.LastLeft S.FirstRight
  guard (LastLeft + 1 = FirstRight)
  guard (FirstRight ≤ LastCluster)
  return ⟨LastLeft, FirstRight, S.LeftProb, S.RightProb⟩

/-! ## The balanced split -/

section Sums

variable (Clusters : List (CaseCluster w)) (DefaultProb : BranchProbability)

def sideProb (Side : List (CaseCluster w)) (DefaultProb : BranchProbability) : Nat :=
  min (2 ^ 31) ((Side.map fun C => C.Prob.N.toNat).sum + DefaultProb.N.toNat / 2)

def leftProb (l : Nat) : Nat := sideProb (Clusters.take (l + 1)) DefaultProb

def rightProb (r : Nat) : Nat := sideProb (Clusters.drop r) DefaultProb

/--
The last place on the left when the places of both sides are walked towards each
other: the side with less probability goes on, and in turn where they are equal.
-/
def meeting (l r : Nat) : Nat :=
  if l + 1 < r then
    if leftProb Clusters DefaultProb l < rightProb Clusters DefaultProb r ∨
        leftProb Clusters DefaultProb l = rightProb Clusters DefaultProb r ∧
          (l + (Clusters.length - 1 - r)) % 2 = 1 then meeting (l + 1) r
    else meeting l (r - 1)
  else l
termination_by r - l

def AllKnown : Prop :=
  (∀ C ∈ Clusters, C.Prob.isUnknown = false) ∧ DefaultProb.isUnknown = false

/-- The probabilities are those of the clusters on each side. -/
structure Counted (S : SplitWorkItemInfo) : Prop where
  left : S.LeftProb.N.toNat = leftProb Clusters DefaultProb S.LastLeft
  right : S.RightProb.N.toNat = rightProb Clusters DefaultProb S.FirstRight

end Sums

section Balance

variable {Clusters : List (CaseCluster w)} {DefaultProb : BranchProbability} {l r : Nat}
  {C : CaseCluster w} {S : SplitWorkItemInfo}

theorem leftProb_succ (DefaultProb : BranchProbability) (hC : Clusters[l + 1]? = some C) :
    leftProb Clusters DefaultProb (l + 1) =
      min (2 ^ 31) (leftProb Clusters DefaultProb l + C.Prob.N.toNat) := by
  unfold leftProb sideProb
  rw [List.take_add_one, hC, List.map_append, List.sum_append]
  simp only [Option.toList_some, List.map_cons, List.map_nil, List.sum_cons, List.sum_nil]
  omega

theorem rightProb_eq (DefaultProb : BranchProbability) (hC : Clusters[r]? = some C) :
    rightProb Clusters DefaultProb r =
      min (2 ^ 31) (rightProb Clusters DefaultProb (r + 1) + C.Prob.N.toNat) := by
  obtain ⟨hr, rfl⟩ := List.getElem?_eq_some_iff.mp hC
  unfold rightProb sideProb
  rw [List.drop_eq_getElem_cons hr, List.map_cons, List.sum_cons]
  omega

theorem Counted.known (h : Counted Clusters DefaultProb S) :
    S.LeftProb.isUnknown = false ∧ S.RightProb.isUnknown = false := by
  have hleft := h.left
  have hright := h.right
  unfold leftProb rightProb sideProb at *
  exact ⟨BranchProbability.isUnknown_of_lt (by omega), BranchProbability.isUnknown_of_lt (by omega)⟩

theorem takesLeft_iff (S : SplitWorkItemInfo) (I : Nat) :
    (decide (S.LeftProb.N < S.RightProb.N) = true ∨ (S.LeftProb.N = S.RightProb.N ∧ I &&& 1 ≠ 0)) ↔
      (S.LeftProb.N.toNat < S.RightProb.N.toNat ∨
        S.LeftProb.N.toNat = S.RightProb.N.toNat ∧ I % 2 = 1) := by
  rw [decide_eq_true_iff, BitVec.lt_def, BitVec.toNat_inj, Nat.and_one_is_mod]
  have hparity : I % 2 ≠ 0 ↔ I % 2 = 1 := by omega
  rw [hparity]

theorem balance_counted (hknown : ∀ C ∈ Clusters, C.Prob.isUnknown = false)
    (hS : Counted Clusters DefaultProb S) (hlt : S.LastLeft < S.FirstRight)
    (hend : S.FirstRight < Clusters.length) {I : Nat}
    (hI : I = S.LastLeft + (Clusters.length - 1 - S.FirstRight)) :
    ∃ S', balance Clusters I S = some S' ∧ Counted Clusters DefaultProb S' ∧
      S'.LastLeft = meeting Clusters DefaultProb S.LastLeft S.FirstRight ∧
      S'.FirstRight = S'.LastLeft + 1 ∧ S'.FirstRight < Clusters.length := by
  induction hn : S.FirstRight - S.LastLeft generalizing S I with
  | zero => omega
  | succ n ih =>
    obtain ⟨hleft, hright⟩ := hS.known
    have hchoice := takesLeft_iff S I
    rw [balance, meeting, ← hS.left, ← hS.right, BranchProbability.lt_eq hleft hright, ← hI]
    by_cases hgap : S.LastLeft + 1 < S.FirstRight
    · rw [if_pos hgap, if_pos hgap]
      dsimp only [Option.bind_eq_bind, Option.bind_some]
      by_cases htake : S.LeftProb.N.toNat < S.RightProb.N.toNat ∨
          S.LeftProb.N.toNat = S.RightProb.N.toNat ∧ I % 2 = 1
      · have hC := List.getElem?_eq_getElem (Nat.lt_trans hgap hend)
        generalize Clusters[S.LastLeft + 1] = C at hC
        obtain ⟨Q, hadd, -, hQ⟩ := BranchProbability.add_saturates hleft
          (hknown C (List.mem_of_getElem? hC))
        rw [if_pos (hchoice.mpr htake), if_pos htake, hC]
        dsimp only [Option.bind_some]
        rw [hadd]
        exact ih (S := { S with LastLeft := S.LastLeft + 1, LeftProb := Q })
          ⟨by rw [leftProb_succ DefaultProb hC, ← hS.left, hQ], hS.right⟩ hgap hend
          (by dsimp only; omega) (by dsimp only; omega)
      · have hC := List.getElem?_eq_getElem (show S.FirstRight - 1 < Clusters.length by omega)
        generalize Clusters[S.FirstRight - 1] = C at hC
        have hnext : S.FirstRight - 1 + 1 = S.FirstRight := by omega
        obtain ⟨Q, hadd, -, hQ⟩ := BranchProbability.add_saturates hright
          (hknown C (List.mem_of_getElem? hC))
        rw [if_neg fun h => htake (hchoice.mp h), if_neg htake, hC]
        dsimp only [Option.bind_some]
        rw [hadd]
        exact ih (S := { S with FirstRight := S.FirstRight - 1, RightProb := Q })
          ⟨hS.left, by rw [rightProb_eq DefaultProb hC, hnext, ← hS.right, hQ]⟩ (by dsimp only; omega)
          (by dsimp only; omega) (by dsimp only; omega) (by dsimp only; omega)
    · rw [if_neg hgap, if_neg hgap]
      exact ⟨S, rfl, hS, rfl, by omega, hend⟩

end Balance

/-! ## The clusters that move -/

def outranks (CC X : CaseCluster w) : Bool :=
  if X.Prob.N ≠ CC.Prob.N then decide (CC.Prob.N < X.Prob.N) else X.Low.slt CC.Low

def rank (CC : CaseCluster w) (Side : List (CaseCluster w)) : Nat := Side.countP (outranks CC)

section Moves

variable (Clusters : List (CaseCluster w)) (DefaultProb : BranchProbability)

/-- The cluster after `l` goes to the left side, which has few clusters: it is not demoted. -/
def MovesLeft (l : Nat) : Prop :=
  l + 1 < 3 ∧ 3 < Clusters.length - 1 - l ∧ ∀ CC, Clusters[l + 1]? = some CC →
    rank CC (Clusters.take (l + 1)) ≤ rank CC (Clusters.drop (l + 1))

def MovesRight (l : Nat) : Prop :=
  Clusters.length - 1 - l < 3 ∧ 3 < l + 1 ∧ ∀ CC, Clusters[l]? = some CC →
    rank CC (Clusters.drop (l + 1)) ≤ rank CC (Clusters.take (l + 1))

inductive Moves : Nat → Nat → Prop
  | left {l : Nat} : MovesLeft Clusters l → Moves l (l + 1)
  | right {l : Nat} : MovesRight Clusters l → Moves l (l - 1)

def Free (C : CaseCluster w) (taking giving : Nat) : Prop :=
  C.Prob.N.toNat = 0 ∨ taking = 2 ^ 31 ∧ giving = 2 ^ 31

/-- The move at `l` is free, if there is one. -/
structure FreeAt (l : Nat) : Prop where
  left : MovesLeft Clusters l → ∀ C, Clusters[l + 1]? = some C →
    Free C (leftProb Clusters DefaultProb l) (rightProb Clusters DefaultProb (l + 1 + 1))
  right : MovesRight Clusters l → ∀ C, Clusters[l]? = some C →
    Free C (rightProb Clusters DefaultProb (l + 1)) (leftProb Clusters DefaultProb (l - 1))

def MovesFree (l : Nat) : Prop :=
  ∀ m, Relation.ReflTransGen (Moves Clusters) l m → FreeAt Clusters DefaultProb m

end Moves

section Adjust

variable {Clusters : List (CaseCluster w)} {DefaultProb : BranchProbability} {l m : Nat}
  {C CC : CaseCluster w}

theorem ranksBefore_eq (hC : C.Prob.isUnknown = false) (hCC : CC.Prob.isUnknown = false) :
    ranksBefore CC C = some (outranks CC C) := by
  unfold ranksBefore outranks
  rw [BranchProbability.gt_eq hC hCC]
  split <;> rfl

theorem caseClusterRank_eq (hknown : ∀ C ∈ Clusters, C.Prob.isUnknown = false)
    (hCC : CC ∈ Clusters) (First Last : Nat) : caseClusterRank CC Clusters First Last =
      some (rank CC ((Clusters.drop First).take (Last + 1 - First))) := by
  have hranks : ∀ Side : List (CaseCluster w), (∀ C ∈ Side, C ∈ Clusters) →
      Side.mapM (ranksBefore CC) = some (Side.map (outranks CC)) := by
    intro Side hSide
    induction Side with
    | nil => rfl
    | cons C Side ih =>
      rw [List.mapM_cons, ranksBefore_eq (hknown C (hSide C List.mem_cons_self)) (hknown CC hCC),
        ih fun D hD => hSide D (List.mem_cons_of_mem C hD)]
      rfl
  unfold caseClusterRank rank
  rw [hranks _ fun C hC => List.mem_of_mem_drop (List.mem_of_mem_take hC)]
  dsimp only [Option.bind_eq_bind, Option.bind_some, Option.pure_def]
  rw [List.count, List.countP_map]
  congr 1
  apply List.countP_congr
  simp

theorem rank_left (hknown : ∀ C ∈ Clusters, C.Prob.isUnknown = false) (hCC : CC ∈ Clusters) :
    caseClusterRank CC Clusters 0 l = some (rank CC (Clusters.take (l + 1))) :=
  caseClusterRank_eq hknown hCC 0 l

theorem rank_right (hknown : ∀ C ∈ Clusters, C.Prob.isUnknown = false) (hCC : CC ∈ Clusters)
    (r : Nat) : caseClusterRank CC Clusters r (Clusters.length - 1) =
      some (rank CC (Clusters.drop r)) := by
  rw [caseClusterRank_eq hknown hCC, List.take_of_length_le]
  rw [List.length_drop]
  omega

theorem adjust_of_movesLeft (hknown : ∀ C ∈ Clusters, C.Prob.isUnknown = false)
    (hl : l + 1 < Clusters.length) (hmove : MovesLeft Clusters l) :
    adjust Clusters l (l + 1) = adjust Clusters (l + 1) (l + 1 + 1) := by
  obtain ⟨hleft, hright, hrank⟩ := hmove
  have hC := List.getElem?_eq_getElem hl
  generalize Clusters[l + 1] = C at hC
  have hmem := List.mem_of_getElem? hC
  rw [adjust]
  rw [dif_pos (by omega), dif_pos (by omega), hC]
  dsimp only [Option.bind_eq_bind, Option.bind_some]
  rw [rank_left hknown hmem, rank_right hknown hmem]
  exact if_pos (hrank C hC)

theorem adjust_of_movesRight (hknown : ∀ C ∈ Clusters, C.Prob.isUnknown = false)
    (hl : l + 1 < Clusters.length) (hmove : MovesRight Clusters l) :
    adjust Clusters l (l + 1) = adjust Clusters (l - 1) l := by
  obtain ⟨hright, hleft, hrank⟩ := hmove
  have hC := List.getElem?_eq_getElem (Nat.lt_of_succ_lt hl)
  generalize Clusters[l] = C at hC
  have hmem := List.mem_of_getElem? hC
  rw [adjust]
  rw [dif_pos (by omega), dif_neg (by omega), guard, if_pos (by omega), hC]
  dsimp only [Option.bind_eq_bind, Option.bind_some, Option.pure_def]
  rw [rank_left hknown hmem, rank_right hknown hmem]
  exact if_pos (hrank C hC)

theorem adjust_of_stays (hknown : ∀ C ∈ Clusters, C.Prob.isUnknown = false)
    (hl : l + 1 < Clusters.length) (hleft : ¬ MovesLeft Clusters l)
    (hright : ¬ MovesRight Clusters l) : adjust Clusters l (l + 1) = some (l, l + 1) := by
  have hC := List.getElem?_eq_getElem (Nat.lt_of_succ_lt hl)
  have hD := List.getElem?_eq_getElem hl
  generalize Clusters[l] = C at hC
  generalize Clusters[l + 1] = D at hD
  have hCmem := List.mem_of_getElem? hC
  have hDmem := List.mem_of_getElem? hD
  rw [adjust]
  split
  · next hfew =>
    split
    · next hlt =>
      rw [hD]
      dsimp only [Option.bind_eq_bind, Option.bind_some, Option.pure_def]
      rw [rank_left hknown hDmem, rank_right hknown hDmem]
      refine if_neg fun hrank => hleft ⟨by omega, by omega, fun E hE => ?_⟩
      obtain rfl : D = E := Option.some.inj (hD.symm.trans hE)
      exact hrank
    · next hge =>
      rw [guard, if_pos (by omega), hC]
      dsimp only [Option.bind_eq_bind, Option.bind_some, Option.pure_def]
      rw [rank_left hknown hCmem, rank_right hknown hCmem]
      refine if_neg fun hrank => hright ⟨by omega, by omega, fun E hE => ?_⟩
      obtain rfl : C = E := Option.some.inj (hC.symm.trans hE)
      exact hrank
  · rfl

theorem leftProb_le (Clusters : List (CaseCluster w)) (DefaultProb : BranchProbability)
    (l : Nat) : leftProb Clusters DefaultProb l ≤ 2 ^ 31 := Nat.min_le_left _ _

theorem rightProb_le (Clusters : List (CaseCluster w)) (DefaultProb : BranchProbability)
    (r : Nat) : rightProb Clusters DefaultProb r ≤ 2 ^ 31 := Nat.min_le_left _ _

theorem not_movesLeft (hsize : Clusters.length - 1 - l ≤ l + 1) : ¬ MovesLeft Clusters l := by
  rintro ⟨hfew, hmany, -⟩
  omega

theorem not_movesRight (hsize : l + 1 ≤ Clusters.length - 1 - l) : ¬ MovesRight Clusters l := by
  rintro ⟨hfew, hmany, -⟩
  omega

theorem free_left_iff (DefaultProb : BranchProbability) (hC : Clusters[l + 1]? = some C) :
    Free C (leftProb Clusters DefaultProb l) (rightProb Clusters DefaultProb (l + 1 + 1)) ↔
      leftProb Clusters DefaultProb (l + 1) = leftProb Clusters DefaultProb l ∧
        rightProb Clusters DefaultProb (l + 1 + 1) = rightProb Clusters DefaultProb (l + 1) := by
  have hleft := leftProb_le Clusters DefaultProb l
  have hright := rightProb_le Clusters DefaultProb (l + 1 + 1)
  have hgive := rightProb_eq DefaultProb hC
  rw [leftProb_succ DefaultProb hC]
  unfold Free
  omega

theorem free_right_iff (DefaultProb : BranchProbability) (hC : Clusters[l + 1]? = some C) :
    Free C (rightProb Clusters DefaultProb (l + 1 + 1)) (leftProb Clusters DefaultProb l) ↔
      leftProb Clusters DefaultProb l = leftProb Clusters DefaultProb (l + 1) ∧
        rightProb Clusters DefaultProb (l + 1) = rightProb Clusters DefaultProb (l + 1 + 1) := by
  have hmirror := free_left_iff DefaultProb hC
  unfold Free at *
  omega

theorem movesFree_iff : MovesFree Clusters DefaultProb l ↔
    FreeAt Clusters DefaultProb l ∧ ∀ m, Moves Clusters l m → MovesFree Clusters DefaultProb m := by
  constructor
  · intro h
    exact ⟨h l Relation.ReflTransGen.refl,
      fun m hmove k hk => h k (Relation.ReflTransGen.head hmove hk)⟩
  · rintro ⟨hhead, htail⟩ m hm
    rcases Relation.ReflTransGen.cases_head hm with rfl | ⟨k, hmove, hk⟩
    · exact hhead
    · exact htail k hmove m hk

theorem movesFree_of_stays (hleft : ¬ MovesLeft Clusters l) (hright : ¬ MovesRight Clusters l) :
    MovesFree Clusters DefaultProb l := by
  refine movesFree_iff.mpr ⟨⟨fun h => absurd h hleft, fun h => absurd h hright⟩, fun m hmove => ?_⟩
  cases hmove with
  | left h => exact absurd h hleft
  | right h => exact absurd h hright

theorem movesFree_left_iff (hleft : MovesLeft Clusters l) (hC : Clusters[l + 1]? = some C) :
    MovesFree Clusters DefaultProb l ↔
      Free C (leftProb Clusters DefaultProb l) (rightProb Clusters DefaultProb (l + 1 + 1)) ∧
        MovesFree Clusters DefaultProb (l + 1) := by
  have hright : ¬ MovesRight Clusters l := by
    obtain ⟨hfew, hmany, -⟩ := hleft
    exact not_movesRight (by omega)
  rw [movesFree_iff]
  constructor
  · rintro ⟨hfree, hrest⟩
    exact ⟨hfree.left hleft C hC, hrest (l + 1) (Moves.left hleft)⟩
  · rintro ⟨hfree, hrest⟩
    refine ⟨⟨fun _ D hD => Option.some.inj (hC.symm.trans hD) ▸ hfree,
      fun h => absurd h hright⟩, fun m hmove => ?_⟩
    cases hmove with
    | left h => exact hrest
    | right h => exact absurd h hright

theorem movesFree_right_iff (hright : MovesRight Clusters l) (hC : Clusters[l]? = some C) :
    MovesFree Clusters DefaultProb l ↔
      Free C (rightProb Clusters DefaultProb (l + 1)) (leftProb Clusters DefaultProb (l - 1)) ∧
        MovesFree Clusters DefaultProb (l - 1) := by
  have hleft : ¬ MovesLeft Clusters l := by
    obtain ⟨hfew, hmany, -⟩ := hright
    exact not_movesLeft (by omega)
  rw [movesFree_iff]
  constructor
  · rintro ⟨hfree, hrest⟩
    exact ⟨hfree.right hright C hC, hrest (l - 1) (Moves.right hright)⟩
  · rintro ⟨hfree, hrest⟩
    refine ⟨⟨fun h => absurd h hleft,
      fun _ D hD => Option.some.inj (hC.symm.trans hD) ▸ hfree⟩, fun m hmove => ?_⟩
    cases hmove with
    | left h => exact absurd h hleft
    | right h => exact hrest

/--
The second loop goes from the split after `l` to the one after `l'`. The
probabilities of the sides are those before it if and only if its moves are free.
-/
structure AdjustsTo (Clusters : List (CaseCluster w)) (DefaultProb : BranchProbability)
    (l l' : Nat) : Prop where
  run : adjust Clusters l (l + 1) = some (l', l' + 1)
  inside : l' + 1 < Clusters.length
  free_iff : leftProb Clusters DefaultProb l' = leftProb Clusters DefaultProb l ∧
    rightProb Clusters DefaultProb (l' + 1) = rightProb Clusters DefaultProb (l + 1) ↔
      MovesFree Clusters DefaultProb l

theorem AdjustsTo.of_stays (hknown : ∀ C ∈ Clusters, C.Prob.isUnknown = false)
    (hl : l + 1 < Clusters.length) (hleft : ¬ MovesLeft Clusters l)
    (hright : ¬ MovesRight Clusters l) : AdjustsTo Clusters DefaultProb l l :=
  ⟨adjust_of_stays hknown hl hleft hright, hl,
    fun _ => movesFree_of_stays hleft hright, fun _ => ⟨rfl, rfl⟩⟩

theorem adjust_left (hknown : ∀ C ∈ Clusters, C.Prob.isUnknown = false)
    (hl : l + 1 < Clusters.length) (hsize : l + 1 ≤ Clusters.length - 1 - l) :
    ∃ l', AdjustsTo Clusters DefaultProb l l' ∧
      leftProb Clusters DefaultProb l ≤ leftProb Clusters DefaultProb l' ∧
      rightProb Clusters DefaultProb (l' + 1) ≤ rightProb Clusters DefaultProb (l + 1) := by
  induction hn : Clusters.length - 1 - l generalizing l with
  | zero => omega
  | succ n ih =>
    by_cases hleft : MovesLeft Clusters l
    · have hfew := hleft.1
      have hmany := hleft.2.1
      have hC := List.getElem?_eq_getElem hl
      generalize Clusters[l + 1] = C at hC
      obtain ⟨l', ⟨hrun, hl', hfree⟩, htake, hgive⟩ :=
        ih (l := l + 1) (by omega) (by omega) (by omega)
      have hstep := free_left_iff DefaultProb hC
      have hnext := leftProb_succ DefaultProb hC
      have hlast := rightProb_eq DefaultProb hC
      have hbound := leftProb_le Clusters DefaultProb l
      have hbound' := rightProb_le Clusters DefaultProb (l + 1 + 1)
      refine ⟨l', ⟨(adjust_of_movesLeft hknown hl hleft).trans hrun, hl', ?_⟩, by omega, by omega⟩
      rw [movesFree_left_iff hleft hC, hstep, ← hfree]
      omega
    · exact ⟨l, AdjustsTo.of_stays hknown hl hleft (not_movesRight hsize), Nat.le_refl _,
        Nat.le_refl _⟩

theorem adjust_right (hknown : ∀ C ∈ Clusters, C.Prob.isUnknown = false)
    (hl : l + 1 < Clusters.length) (hsize : Clusters.length - 1 - l ≤ l + 1) :
    ∃ l', AdjustsTo Clusters DefaultProb l l' ∧
      leftProb Clusters DefaultProb l' ≤ leftProb Clusters DefaultProb l ∧
      rightProb Clusters DefaultProb (l + 1) ≤ rightProb Clusters DefaultProb (l' + 1) := by
  induction l with
  | zero => exact ⟨0, AdjustsTo.of_stays hknown hl (not_movesLeft hsize)
      fun h => absurd h.2.1 (by decide), Nat.le_refl _, Nat.le_refl _⟩
  | succ l ih =>
    by_cases hright : MovesRight Clusters (l + 1)
    · have hfew := hright.1
      have hmany := hright.2.1
      have hC := List.getElem?_eq_getElem (Nat.lt_of_succ_lt hl)
      generalize Clusters[l + 1] = C at hC
      obtain ⟨l', ⟨hrun, hl', hfree⟩, hgive, htake⟩ := ih (by omega) (by omega)
      have hstep := free_right_iff DefaultProb hC
      have hnext := leftProb_succ DefaultProb hC
      have hlast := rightProb_eq DefaultProb hC
      have hbound := leftProb_le Clusters DefaultProb l
      have hbound' := rightProb_le Clusters DefaultProb (l + 1 + 1)
      refine ⟨l', ⟨(adjust_of_movesRight hknown hl hright).trans hrun, hl', ?_⟩, by omega,
        by omega⟩
      rw [movesFree_right_iff hright hC, Nat.add_sub_cancel, hstep, ← hfree]
      omega
    · exact ⟨l + 1, AdjustsTo.of_stays hknown hl (not_movesLeft hsize) hright, Nat.le_refl _,
        Nat.le_refl _⟩

theorem adjust_free (DefaultProb : BranchProbability)
    (hknown : ∀ C ∈ Clusters, C.Prob.isUnknown = false)
    (hl : l + 1 < Clusters.length) : ∃ l', AdjustsTo Clusters DefaultProb l l' := by
  rcases Nat.le_total (l + 1) (Clusters.length - 1 - l) with hsize | hsize
  · obtain ⟨l', h, -⟩ := adjust_left hknown hl hsize
    exact ⟨l', h⟩
  · obtain ⟨l', h, -⟩ := adjust_right hknown hl hsize
    exact ⟨l', h⟩

theorem known_of_balance {I : Nat} {S S' : SplitWorkItemInfo} (h : balance Clusters I S = some S')
    {k : Nat} (hleft : S.LastLeft < k) (hright : k < S.FirstRight) (hC : Clusters[k]? = some C) :
    C.Prob.isUnknown = false := by
  induction hn : S.FirstRight - S.LastLeft generalizing S I with
  | zero => omega
  | succ n ih =>
    rw [balance, if_pos (by omega), Option.bind_eq_bind, Option.bind_eq_some_iff] at h
    obtain ⟨less, -, h⟩ := h
    split at h
    · simp only [Option.bind_eq_bind, Option.bind_eq_some_iff] at h
      obtain ⟨D, hD, Q, hadd, hrest⟩ := h
      by_cases hk : k = S.LastLeft + 1
      · obtain rfl : D = C := Option.some.inj (hD.symm.trans (hk ▸ hC))
        exact (BranchProbability.known_of_add hadd).2
      · exact ih hrest (by dsimp only; omega) hright (by dsimp only; omega)
    · simp only [Option.bind_eq_bind, Option.bind_eq_some_iff] at h
      obtain ⟨D, hD, Q, hadd, hrest⟩ := h
      by_cases hk : k = S.FirstRight - 1
      · obtain rfl : D = C := Option.some.inj (hD.symm.trans (hk ▸ hC))
        exact (BranchProbability.known_of_add hadd).2
      · exact ih hrest hleft (by dsimp only; omega) (by dsimp only; omega)

end Adjust

/-! ## The whole split -/

section Split

variable {Clusters : List (CaseCluster w)} {DefaultProb : BranchProbability}
  {S : SplitWorkItemInfo}

theorem allKnown_of_split (h : computeSplitWorkItemInfo Clusters DefaultProb = some S) :
    AllKnown Clusters DefaultProb := by
  unfold computeSplitWorkItemInfo at h
  simp only [Option.bind_eq_bind, Option.bind_eq_some_iff] at h
  obtain ⟨First, hfirst, Half, hhalf, L, hL, Last, hlast, Half', -, R, hR, S', hbalance, -⟩ := h
  constructor
  · intro C hC
    obtain ⟨k, hk, hCk⟩ := List.getElem_of_mem hC
    have hget : Clusters[k]? = some C := hCk ▸ List.getElem?_eq_getElem hk
    by_cases hzero : k = 0
    · obtain rfl : First = C := Option.some.inj (hfirst.symm.trans (hzero ▸ hget))
      exact (BranchProbability.known_of_add hL).1
    by_cases hend : k = Clusters.length - 1
    · obtain rfl : Last = C := Option.some.inj (hlast.symm.trans (hend ▸ hget))
      exact (BranchProbability.known_of_add hR).1
    · exact known_of_balance hbalance (by dsimp only; omega) (by dsimp only; omega) hget
  · unfold BranchProbability.div at hhalf
    by_cases hknown : DefaultProb.isUnknown = false
    · exact hknown
    · rw [guard, if_neg hknown] at hhalf
      cases hhalf

theorem split_run (hknown : AllKnown Clusters DefaultProb) (hlength : 2 ≤ Clusters.length) :
    ∃ S, computeSplitWorkItemInfo Clusters DefaultProb = some S ∧
      S.FirstRight = S.LastLeft + 1 ∧
      AdjustsTo Clusters DefaultProb (meeting Clusters DefaultProb 0 (Clusters.length - 1))
        S.LastLeft ∧
      S.LeftProb.N.toNat = leftProb Clusters DefaultProb
        (meeting Clusters DefaultProb 0 (Clusters.length - 1)) ∧
      S.RightProb.N.toNat = rightProb Clusters DefaultProb
        (meeting Clusters DefaultProb 0 (Clusters.length - 1) + 1) := by
  obtain ⟨hall, hdefault⟩ := hknown
  obtain ⟨Half, hhalf, hhalfKnown, hHalf⟩ := BranchProbability.div_two hdefault
  have hC := List.getElem?_eq_getElem (show 0 < Clusters.length by omega)
  have hD := List.getElem?_eq_getElem (show Clusters.length - 1 < Clusters.length by omega)
  generalize Clusters[0] = C at hC
  generalize Clusters[Clusters.length - 1] = D at hD
  obtain ⟨L, hL, -, hLN⟩ := BranchProbability.add_saturates
    (hall C (List.mem_of_getElem? hC)) hhalfKnown
  obtain ⟨R, hR, -, hRN⟩ := BranchProbability.add_saturates
    (hall D (List.mem_of_getElem? hD)) hhalfKnown
  have hstart : Counted Clusters DefaultProb ⟨0, Clusters.length - 1, L, R⟩ := by
    constructor
    · unfold leftProb sideProb
      rw [List.take_add_one, hC]
      simp [hLN, hHalf]
    · unfold rightProb sideProb
      obtain ⟨hlt, rfl⟩ := List.getElem?_eq_some_iff.mp hD
      rw [List.drop_eq_getElem_cons hlt, List.drop_of_length_le (by omega)]
      simp [hRN, hHalf]
  obtain ⟨S', hbalance, hcounted, hmeet, hadjacent, hinside⟩ :=
    balance_counted hall hstart (by dsimp only; omega) (by dsimp only; omega) (I := 0)
      (by dsimp only; omega)
  obtain ⟨l', hadjust⟩ := adjust_free DefaultProb hall (hadjacent ▸ hinside)
  have hlast : l' + 1 ≤ Clusters.length - 1 := by
    have hinside := hadjust.inside
    omega
  refine ⟨⟨l', l' + 1, S'.LeftProb, S'.RightProb⟩, ?_, rfl, hmeet ▸ hadjust,
    hmeet ▸ hcounted.left, hmeet ▸ hadjacent ▸ hcounted.right⟩
  unfold computeSplitWorkItemInfo
  simp only [Option.bind_eq_bind, Option.pure_def, hC, hD, hhalf, hL, hR, hbalance, hadjacent,
    hadjust.run, Option.bind_some, guard, if_true, if_pos hlast]

/--
The split ends with clusters on both sides, next to each other. The returned
probabilities are the sums of the returned sides if and only if the clusters
that the second loop moves do not count.
-/
theorem computeSplitWorkItemInfo_counted (Clusters : List (CaseCluster w))
    (DefaultProb : BranchProbability) (hlength : 2 ≤ Clusters.length) :
    (AllKnown Clusters DefaultProb → ∃ S, computeSplitWorkItemInfo Clusters DefaultProb = some S ∧
      S.LastLeft + 1 = S.FirstRight ∧ S.FirstRight < Clusters.length) ∧
    ((∃ S, computeSplitWorkItemInfo Clusters DefaultProb = some S ∧
      S.LastLeft + 1 = S.FirstRight ∧ S.FirstRight < Clusters.length ∧
        Counted Clusters DefaultProb S) ↔
      AllKnown Clusters DefaultProb ∧ MovesFree Clusters DefaultProb
        (meeting Clusters DefaultProb 0 (Clusters.length - 1))) := by
  refine ⟨fun hknown => ?_, ?_⟩
  · obtain ⟨S, hrun, hadjacent, hadjust, -⟩ := split_run hknown hlength
    exact ⟨S, hrun, hadjacent.symm, hadjacent ▸ hadjust.inside⟩
  constructor
  · rintro ⟨S, hrun, -, -, hcounted⟩
    have hknown := allKnown_of_split hrun
    obtain ⟨S', hrun', hadjacent, hadjust, hleft, hright⟩ := split_run hknown hlength
    obtain rfl : S = S' := Option.some.inj (hrun.symm.trans hrun')
    refine ⟨hknown, hadjust.free_iff.mp ⟨?_, ?_⟩⟩
    · rw [← hleft, hcounted.left]
    · rw [← hright, hcounted.right, hadjacent]
  · rintro ⟨hknown, hfree⟩
    obtain ⟨S, hrun, hadjacent, hadjust, hleft, hright⟩ := split_run hknown hlength
    obtain ⟨hkeepLeft, hkeepRight⟩ := hadjust.free_iff.mpr hfree
    refine ⟨S, hrun, hadjacent.symm, hadjacent ▸ hadjust.inside, ?_, ?_⟩
    · rw [hleft, hkeepLeft]
    · rw [hright, hadjacent, hkeepRight]

end Split

def fiveClusters : List (CaseCluster 8) :=
  [⟨0, 0, ⟨8⟩⟩, ⟨1, 1, ⟨1⟩⟩, ⟨2, 2, ⟨2⟩⟩, ⟨3, 3, ⟨2⟩⟩, ⟨4, 4, ⟨2⟩⟩]

/-- Two clusters stay where they are. -/
theorem computeSplitWorkItemInfo_counted_pair :
    ∃ S, computeSplitWorkItemInfo (fiveClusters.take 2) ⟨0⟩ = some S ∧
      S.LastLeft + 1 = S.FirstRight ∧ S.FirstRight < 2 ∧
        Counted (fiveClusters.take 2) ⟨0⟩ S := by
  have hmeeting : meeting (fiveClusters.take 2) ⟨0⟩ 0 1 = 0 := by
    rw [meeting]
    rfl
  refine (computeSplitWorkItemInfo_counted (fiveClusters.take 2) ⟨0⟩ (by decide)).2.mpr
    ⟨⟨by decide, by decide⟩, ?_⟩
  change MovesFree _ _ (meeting (fiveClusters.take 2) ⟨0⟩ 0 1)
  rw [hmeeting]
  exact movesFree_of_stays (not_movesLeft (by decide)) (not_movesRight (by decide))

theorem balance_fiveClusters :
    balance fiveClusters 0 ⟨0, 4, ⟨8⟩, ⟨2⟩⟩ = some ⟨0, 1, ⟨8⟩, ⟨7⟩⟩ := by
  rw [balance]
  change balance fiveClusters 1 ⟨0, 3, ⟨8⟩, ⟨4⟩⟩ = _
  rw [balance]
  change balance fiveClusters 2 ⟨0, 2, ⟨8⟩, ⟨6⟩⟩ = _
  rw [balance]
  change balance fiveClusters 3 ⟨0, 1, ⟨8⟩, ⟨7⟩⟩ = _
  rw [balance]
  rfl

theorem adjust_fiveClusters : adjust fiveClusters 0 1 = some (1, 2) := by
  rw [adjust]
  rw [adjust]
  rfl

/-- The second cluster moves to the left side, and its probability stays on the right. -/
theorem splitProbabilities_lost : AllKnown fiveClusters ⟨0⟩ ∧
    ∃ S, computeSplitWorkItemInfo fiveClusters ⟨0⟩ = some S ∧ S.LastLeft = 1 ∧
      S.LeftProb.N.toNat = 8 ∧ leftProb fiveClusters ⟨0⟩ 1 = 9 ∧
      S.RightProb.N.toNat = 7 ∧ rightProb fiveClusters ⟨0⟩ 2 = 6 := by
  refine ⟨⟨by decide, by decide⟩, ⟨1, 2, ⟨8⟩, ⟨7⟩⟩, ?_, rfl, rfl, rfl, rfl, rfl⟩
  change (balance fiveClusters 0 ⟨0, 4, ⟨8⟩, ⟨2⟩⟩).bind _ = _
  rw [balance_fiveClusters]
  change (adjust fiveClusters 0 1).bind _ = _
  rw [adjust_fiveClusters]
  rfl

end SmlnjLlvm.SwitchLowering
