import SmlnjLlvm.Analysis.BlockFrequencyInfo
import SmlnjLlvm.Library.KeySums

/-!
# Combining edges to one target

Sorting and hashing both leave one weight for each target, whose amount is the
sum of the amounts of its edges, or the largest word if that is smaller.
-/

namespace SmlnjLlvm.BlockFrequency

open KeySums Words

namespace Weight

/-- The amount as a number. -/
def size (W : Weight) : Nat := W.Amount.toNat

end Weight

/-- The amounts of all edges to a target. -/
abbrev amountTo (ws : List Weight) (t : BlockNode) : Nat :=
  sumAt Weight.TargetNode Weight.size ws t

def targets (ws : List Weight) : List BlockNode := (ws.map Weight.TargetNode).dedup

def saturated (n : Nat) : Nat := min n (2 ^ 64 - 1)

theorem saturated_add (a b : Nat) : saturated (saturated a + b) = saturated (a + b) := by
  unfold saturated
  omega

theorem saturated_size (W : Weight) : saturated W.size = W.size := by
  unfold saturated Weight.size
  omega

/-- Edges as they are added: positive amounts, valid targets, and one type for each target. -/
structure WellFormed (ws : List Weight) : Prop where
  pos : ∀ W ∈ ws, W.Amount ≠ 0
  valid : ∀ W ∈ ws, W.TargetNode.isValid = true
  type : ∀ W ∈ ws, ∀ W' ∈ ws, W.TargetNode = W'.TargetNode → W.type = W'.type

theorem WellFormed.subset {ws vs : List Weight} (h : WellFormed ws) (hsub : ∀ W ∈ vs, W ∈ ws) :
    WellFormed vs :=
  ⟨fun W hW => h.pos W (hsub W hW), fun W hW => h.valid W (hsub W hW),
    fun W hW W' hW' => h.type W (hsub W hW) W' (hsub W' hW')⟩

/-- One weight for each target of the edges. -/
structure Combined (ws cs : List Weight) : Prop where
  nodup : (cs.map Weight.TargetNode).Nodup
  mem_iff : ∀ t, t ∈ cs.map Weight.TargetNode ↔ t ∈ ws.map Weight.TargetNode
  amount : ∀ C ∈ cs, C.size = saturated (amountTo ws C.TargetNode)
  type : ∀ C ∈ cs, ∃ W ∈ ws, W.TargetNode = C.TargetNode ∧ W.type = C.type

theorem Combined.perm {ws cs ws' cs' : List Weight} (h : Combined ws cs) (hws : ws'.Perm ws)
    (hcs : cs'.Perm cs) : Combined ws' cs' := by
  refine ⟨((hcs.map _).nodup_iff).mpr h.nodup, ?_, ?_, ?_⟩
  · intro t
    rw [(hcs.map _).mem_iff, h.mem_iff, (hws.map _).mem_iff]
  · intro C hC
    rw [h.amount C (hcs.mem_iff.mp hC), amountTo, amountTo, sumAt_perm hws]
  · intro C hC
    obtain ⟨W, hW, hsame⟩ := h.type C (hcs.mem_iff.mp hC)
    exact ⟨W, hws.mem_iff.mpr hW, hsame⟩

theorem Combined.append {ws ws' cs cs' : List Weight} (h : Combined ws cs) (h' : Combined ws' cs')
    (hdisjoint : ∀ t ∈ ws.map Weight.TargetNode, t ∉ ws'.map Weight.TargetNode) :
    Combined (ws ++ ws') (cs ++ cs') := by
  refine ⟨?_, ?_, ?_, ?_⟩
  · rw [List.map_append, List.nodup_append]
    refine ⟨h.nodup, h'.nodup, ?_⟩
    rintro t ht _ ht' rfl
    exact hdisjoint t ((h.mem_iff t).mp ht) ((h'.mem_iff t).mp ht')
  · intro t
    rw [List.map_append, List.map_append, List.mem_append, List.mem_append, h.mem_iff, h'.mem_iff]
  · intro C hC
    rw [amountTo, sumAt_append]
    rcases List.mem_append.mp hC with hC | hC
    · have hmem := (h.mem_iff _).mp (List.mem_map_of_mem hC)
      rw [h.amount C hC, sumAt_eq_zero (hdisjoint _ hmem), Nat.add_zero]
    · have hmem := (h'.mem_iff _).mp (List.mem_map_of_mem hC)
      rw [h'.amount C hC, sumAt_eq_zero (fun hw => hdisjoint _ hw hmem), Nat.zero_add]
  · intro C hC
    rcases List.mem_append.mp hC with hC | hC
    · obtain ⟨W, hW, hsame⟩ := h.type C hC
      exact ⟨W, List.mem_append_left _ hW, hsame⟩
    · obtain ⟨W, hW, hsame⟩ := h'.type C hC
      exact ⟨W, List.mem_append_right _ hW, hsame⟩

theorem Combined.singleton (W : Weight) : Combined [W] [W] := by
  refine ⟨List.nodup_singleton _, fun t => Iff.rfl, ?_, ?_⟩
  · intro C hC
    rw [List.mem_singleton.mp hC, amountTo, sumAt_cons, if_pos rfl, sumAt_nil, Nat.add_zero,
      saturated_size]
  · intro C hC
    exact ⟨C, hC, rfl, rfl⟩

theorem Combined.of_nodup {ws : List Weight} (h : (ws.map Weight.TargetNode).Nodup) :
    Combined ws ws := by
  refine ⟨h, fun t => Iff.rfl, ?_, fun C hC => ⟨C, hC, rfl, rfl⟩⟩
  intro C hC
  rw [amountTo, sumAt_of_nodup h hC, saturated_size]

theorem combineWeight_spec {W OtherW : Weight} (hvalid : OtherW.TargetNode.isValid = true)
    (hW : W.Amount ≠ 0) (htype : W.type = OtherW.type) (htarget : W.TargetNode = OtherW.TargetNode)
    (hOther : OtherW.Amount ≠ 0) :
    ∃ A, combineWeight W OtherW = some { W with Amount := A } ∧
      A.toNat = saturated (W.size + OtherW.size) := by
  have hsum : (W.Amount + OtherW.Amount).toNat = (W.size + OtherW.size) % 2 ^ 64 :=
    BitVec.toNat_add _ _
  unfold combineWeight
  simp only [guard, hvalid, htype, htarget, hOther, if_true, if_neg hW, Option.pure_def,
    Option.bind_eq_bind, Option.bind_some, not_false_eq_true, ne_eq]
  unfold saturated Weight.size at *
  by_cases hwrap : W.Amount + OtherW.Amount < W.Amount
  · refine ⟨BitVec.allOnes 64, by rw [if_pos hwrap, ← htype, ← htarget], ?_⟩
    have hall : (BitVec.allOnes 64).toNat = 2 ^ 64 - 1 := rfl
    rw [BitVec.lt_def, hsum] at hwrap
    rw [hall]
    omega
  · refine ⟨W.Amount + OtherW.Amount, by rw [if_neg hwrap, ← htype, ← htarget], ?_⟩
    rw [BitVec.lt_def, hsum] at hwrap
    rw [hsum]
    omega

theorem ne_zero_of_combined {W : Weight} {n : Nat} (hW : W.size = saturated n) (hn : 0 < n) :
    W.Amount ≠ 0 := by
  intro hzero
  have hsize : W.size = 0 := by
    rw [Weight.size, hzero]
    rfl
  unfold saturated at hW
  omega

theorem amountTo_pos {ws : List Weight} (h : WellFormed ws) {W : Weight} (hW : W ∈ ws) :
    0 < amountTo ws W.TargetNode := by
  have hle : W.size ≤ amountTo ws W.TargetNode := size_le_sumAt hW
  have hpos : W.size ≠ 0 := fun hzero => h.pos W hW (BitVec.eq_of_toNat_eq hzero)
  omega

theorem Combined.pos {ws cs : List Weight} (h : Combined ws cs) (hws : WellFormed ws) {C : Weight}
    (hC : C ∈ cs) : C.Amount ≠ 0 := by
  obtain ⟨W, hW, htarget, _⟩ := h.type C hC
  apply ne_zero_of_combined (h.amount C hC)
  rw [← htarget]
  exact amountTo_pos hws hW

theorem Combined.combine {ws : List Weight} {cs cs' : List Weight} {C L : Weight}
    (h : Combined ws (cs ++ C :: cs')) (hws : WellFormed (ws ++ [L]))
    (htarget : C.TargetNode = L.TargetNode) :
    ∃ C', combineWeight C L = some C' ∧ C'.TargetNode = C.TargetNode ∧
      Combined (ws ++ [L]) (cs ++ C' :: cs') := by
  have hC : C ∈ cs ++ C :: cs' := List.mem_append_right _ List.mem_cons_self
  have hL : L ∈ ws ++ [L] := List.mem_append_right _ (List.mem_singleton_self L)
  have hsub : WellFormed ws := hws.subset fun W hW => List.mem_append_left _ hW
  obtain ⟨W, hW, hWtarget, hWtype⟩ := h.type C hC
  have htype : C.type = L.type := by
    rw [← hWtype]
    exact hws.type W (List.mem_append_left _ hW) L hL (hWtarget.trans htarget)
  obtain ⟨A, hrun, hA⟩ := combineWeight_spec (hws.valid L hL) (h.pos hsub hC) htype htarget
    (hws.pos L hL)
  have hkeys : (cs ++ { C with Amount := A } :: cs').map Weight.TargetNode =
      (cs ++ C :: cs').map Weight.TargetNode := by
    simp
  refine ⟨_, hrun, rfl, ?_, ?_, ?_, ?_⟩
  · rw [hkeys]
    exact h.nodup
  · intro t
    rw [hkeys, h.mem_iff, List.map_append, List.mem_append]
    refine (or_iff_left_of_imp ?_).symm
    intro ht
    rw [List.mem_singleton.mp ht, ← htarget, ← hWtarget]
    exact List.mem_map_of_mem hW
  · intro D hD
    have hsplit : D = { C with Amount := A } ∨ D ∈ cs ++ cs' := by
      simpa [or_left_comm] using hD
    rw [amountTo, sumAt_append, sumAt_cons, sumAt_nil, Nat.add_zero]
    rcases hsplit with rfl | hD
    · rw [if_pos htarget.symm, ← saturated_add, ← h.amount C hC]
      exact hA
    · have hDmem : D ∈ cs ++ C :: cs' := by
        rcases List.mem_append.mp hD with hD | hD
        · exact List.mem_append_left _ hD
        · exact List.mem_append_right _ (List.mem_cons_of_mem _ hD)
      have hne : L.TargetNode ≠ D.TargetNode := by
        have hnodup := h.nodup
        rw [List.map_append, List.map_cons, List.nodup_middle, List.nodup_cons,
          ← List.map_append] at hnodup
        intro heq
        apply hnodup.1
        rw [htarget, heq]
        exact List.mem_map_of_mem hD
      rw [if_neg hne, Nat.add_zero]
      exact h.amount D hDmem
  · intro D hD
    have hsplit : D = { C with Amount := A } ∨ D ∈ cs ++ C :: cs' := by
      have hmem : D = { C with Amount := A } ∨ D ∈ cs ++ cs' := by
        simpa [or_left_comm] using hD
      rcases hmem with heq | hD
      · exact Or.inl heq
      · right
        rcases List.mem_append.mp hD with hD | hD
        · exact List.mem_append_left _ hD
        · exact List.mem_append_right _ (List.mem_cons_of_mem _ hD)
    rcases hsplit with rfl | hD
    · exact ⟨W, List.mem_append_left _ hW, hWtarget, hWtype⟩
    · obtain ⟨V, hV, hsame⟩ := h.type D hD
      exact ⟨V, List.mem_append_left _ hV, hsame⟩

theorem combineAdjacent_spec (rest : List Weight) (ws : List Weight) (O : Weight)
    (h : Combined ws [O]) (hws : WellFormed (ws ++ rest))
    (hsorted : (O :: rest).Pairwise fun L R => L.TargetNode.Index ≤ R.TargetNode.Index) :
    ∃ cs, combineAdjacent O rest = some cs ∧ Combined (ws ++ rest) cs := by
  induction rest generalizing ws O with
  | nil =>
    rw [List.append_nil]
    exact ⟨[O], rfl, h⟩
  | cons L rest ih =>
    rw [List.pairwise_cons] at hsorted
    unfold combineAdjacent
    by_cases htarget : O.TargetNode = L.TargetNode
    · have hwsL : WellFormed (ws ++ [L]) := hws.subset fun W hW => by
        rcases List.mem_append.mp hW with hW | hW
        · exact List.mem_append_left _ hW
        · rw [List.mem_singleton.mp hW]
          exact List.mem_append_right _ List.mem_cons_self
      obtain ⟨O', hrun, htarget', hcombined⟩ :=
        Combined.combine (show Combined ws ([] ++ [O]) from h) hwsL htarget
      have hassoc : ws ++ L :: rest = ws ++ [L] ++ rest := by simp
      rw [hassoc] at hws ⊢
      have hsorted' : (O' :: rest).Pairwise fun L R =>
          L.TargetNode.Index ≤ R.TargetNode.Index := by
        rw [List.pairwise_cons, htarget']
        exact ⟨fun R hR => hsorted.1 R (List.mem_cons_of_mem L hR), (List.pairwise_cons.mp hsorted.2).2⟩
      obtain ⟨cs, hcs, hall⟩ := ih (ws ++ [L]) O' hcombined hws hsorted'
      refine ⟨cs, ?_, hall⟩
      rw [if_pos htarget, hrun]
      exact hcs
    · have hwsL : WellFormed ([L] ++ rest) :=
        hws.subset fun W hW => List.mem_append_right _ hW
      obtain ⟨cs, hcs, hall⟩ := ih [L] L (Combined.singleton L) hwsL hsorted.2
      refine ⟨O :: cs, ?_, ?_⟩
      · rw [if_neg htarget, hcs]
        rfl
      · refine h.append hall ?_
        intro t ht ht'
        have hO : t = O.TargetNode := by
          rw [← h.mem_iff, List.map_singleton, List.mem_singleton] at ht
          exact ht
        -- All later targets are at or above that of `L`, which is above `t`.
        obtain ⟨R, hR, rfl⟩ := List.mem_map.mp ht'
        have hLR : L.TargetNode.Index ≤ R.TargetNode.Index := by
          rcases List.mem_cons.mp hR with rfl | hR
          · exact BitVec.le_refl _
          · exact (List.pairwise_cons.mp hsorted.2).1 R hR
        have hOL := hsorted.1 L List.mem_cons_self
        rw [← hO] at hOL htarget
        apply htarget
        have hindex := BitVec.le_antisymm hOL hLR
        cases hRT : R.TargetNode
        cases hLT : L.TargetNode
        rw [hRT, hLT] at hindex
        exact congrArg BlockNode.mk hindex

theorem combineWeightsBySorting_spec (c : Containers) {ws : List Weight} (hws : WellFormed ws)
    (hne : ws ≠ []) : ∃ cs, combineWeightsBySorting c ws = some cs ∧ Combined ws cs := by
  have hperm := c.sort_perm ws
  have hsorted := c.sort_sorted ws
  unfold combineWeightsBySorting
  generalize c.sort ws = sorted at hperm hsorted
  cases sorted with
  | nil => exact absurd hperm.nil_eq.symm hne
  | cons O rest =>
    have hwf : WellFormed ([O] ++ rest) := hws.subset fun W hW => hperm.mem_iff.mp hW
    obtain ⟨cs, hcs, hall⟩ := combineAdjacent_spec rest [O] O (Combined.singleton O) hwf hsorted
    exact ⟨cs, hcs, hall.perm hperm.symm (List.Perm.refl cs)⟩

/-! ## Hashing -/

theorem combineInto_new {W : Weight} (hvalid : W.TargetNode.isValid = true)
    {table : List (BitVec 32 × Weight)} (hnew : ∀ e ∈ table, e.1 ≠ W.TargetNode.Index) :
    combineInto W table = some (table ++ [(W.TargetNode.Index, W)]) := by
  induction table with
  | nil =>
    unfold combineInto combineWeight
    simp only [guard, hvalid, if_true]
    rfl
  | cons e table ih =>
    unfold combineInto
    rw [if_neg (hnew e List.mem_cons_self), ih fun e' he' => hnew e' (List.mem_cons_of_mem e he')]
    rfl

theorem combineInto_old {W V V' : Weight} {table rest : List (BitVec 32 × Weight)}
    (hbefore : ∀ e ∈ table, e.1 ≠ W.TargetNode.Index) (hrun : combineWeight V W = some V') :
    combineInto W (table ++ (W.TargetNode.Index, V) :: rest) =
      some (table ++ (W.TargetNode.Index, V') :: rest) := by
  induction table with
  | nil =>
    rw [List.nil_append, combineInto, if_pos rfl, hrun]
    rfl
  | cons e table ih =>
    rw [List.cons_append, combineInto, if_neg (hbefore e List.mem_cons_self),
      ih fun e' he' => hbefore e' (List.mem_cons_of_mem e he')]
    rfl

/-- The entries are under the index of their target. -/
def Keyed (table : List (BitVec 32 × Weight)) : Prop := ∀ e ∈ table, e.1 = e.2.TargetNode.Index

theorem combineInto_spec {ws : List Weight} {table : List (BitVec 32 × Weight)} {W : Weight}
    (h : Combined ws (table.map Prod.snd)) (hkeyed : Keyed table)
    (hws : WellFormed (ws ++ [W])) :
    ∃ table', combineInto W table = some table' ∧ Combined (ws ++ [W]) (table'.map Prod.snd) ∧
      Keyed table' := by
  have hW : W ∈ ws ++ [W] := List.mem_append_right _ (List.mem_singleton_self W)
  by_cases hold : W.TargetNode ∈ ws.map Weight.TargetNode
  · rw [← h.mem_iff, List.map_map] at hold
    obtain ⟨e, he, htarget⟩ := List.mem_map.mp hold
    obtain ⟨before, after, rfl⟩ := List.append_of_mem he
    have hkey : e.1 = W.TargetNode.Index := by
      rw [hkeyed e he, ← htarget]
      rfl
    rw [List.map_append, List.map_cons] at h
    obtain ⟨V', hrun, hV', hcombined⟩ := Combined.combine h hws htarget
    have hbefore : ∀ e' ∈ before, e'.1 ≠ W.TargetNode.Index := by
      intro e' he' heq
      have hnodup := h.nodup
      rw [List.map_append, List.map_cons, List.nodup_middle, List.nodup_cons] at hnodup
      apply hnodup.1
      have hsame : e'.2.TargetNode = e.2.TargetNode := by
        have hindex : e'.2.TargetNode.Index = e.2.TargetNode.Index := by
          rw [← hkeyed e' (List.mem_append_left _ he'), heq, ← hkeyed e he, hkey]
        cases hA : e'.2.TargetNode
        cases hB : e.2.TargetNode
        rw [hA, hB] at hindex
        exact congrArg BlockNode.mk hindex
      rw [← hsame]
      exact List.mem_append_left _ (List.mem_map_of_mem (List.mem_map_of_mem he'))
    obtain ⟨key, V⟩ := e
    subst hkey
    refine ⟨before ++ (W.TargetNode.Index, V') :: after, combineInto_old hbefore hrun, ?_, ?_⟩
    · rw [List.map_append, List.map_cons]
      exact hcombined
    · intro e' he'
      rcases List.mem_append.mp he' with he' | he'
      · exact hkeyed e' (List.mem_append_left _ he')
      · rcases List.mem_cons.mp he' with rfl | he'
        · rw [hV']
          exact hkeyed _ he
        · exact hkeyed e' (List.mem_append_right _ (List.mem_cons_of_mem _ he'))
  · have hnew : ∀ e ∈ table, e.1 ≠ W.TargetNode.Index := by
      intro e he heq
      apply hold
      rw [← h.mem_iff]
      have hindex := (hkeyed e he).symm.trans heq
      have hsame : e.2.TargetNode = W.TargetNode := by
        cases hA : e.2.TargetNode
        cases hB : W.TargetNode
        rw [hA, hB] at hindex
        exact congrArg BlockNode.mk hindex
      rw [← hsame]
      exact List.mem_map_of_mem (List.mem_map_of_mem he)
    refine ⟨_, combineInto_new (hws.valid W hW) hnew, ?_, ?_⟩
    · rw [List.map_append]
      refine h.append (Combined.singleton W) ?_
      intro t ht ht'
      rw [List.map_singleton, List.mem_singleton] at ht'
      exact hold (ht' ▸ ht)
    · intro e he
      rcases List.mem_append.mp he with he | he
      · exact hkeyed e he
      · rw [List.mem_singleton.mp he]

theorem combineAll_spec (rest : List Weight) (ws : List Weight)
    (table : List (BitVec 32 × Weight)) (h : Combined ws (table.map Prod.snd))
    (hkeyed : Keyed table) (hws : WellFormed (ws ++ rest)) :
    ∃ table', rest.foldlM (fun Combined W => combineInto W Combined) table = some table' ∧
      Combined (ws ++ rest) (table'.map Prod.snd) := by
  induction rest generalizing ws table with
  | nil =>
    rw [List.append_nil]
    exact ⟨table, rfl, h⟩
  | cons W rest ih =>
    have hassoc : ws ++ W :: rest = ws ++ [W] ++ rest := by simp
    rw [hassoc] at hws ⊢
    obtain ⟨table', hrun, hcombined, hkeyed'⟩ := combineInto_spec h hkeyed
      (hws.subset fun V hV => List.mem_append_left _ hV)
    obtain ⟨table'', hrest, hall⟩ := ih (ws ++ [W]) table' hcombined hkeyed' hws
    refine ⟨table'', ?_, hall⟩
    rw [List.foldlM_cons, hrun]
    exact hrest

theorem combineWeightsByHashing_spec (c : Containers) {ws : List Weight} (hws : WellFormed ws) :
    ∃ cs, combineWeightsByHashing c ws = some cs ∧ Combined ws cs := by
  have hempty : Combined [] (([] : List (BitVec 32 × Weight)).map Prod.snd) :=
    Combined.of_nodup List.nodup_nil
  obtain ⟨table, hrun, hall⟩ := combineAll_spec ws [] [] hempty (fun e he => nomatch he) hws
  unfold combineWeightsByHashing
  rw [hrun]
  simp only [Option.bind_eq_bind, Option.bind_some]
  by_cases hsize : ws.length = table.length
  · -- As many targets as edges: no two edges have the same target.
    refine ⟨ws, if_pos hsize, Combined.of_nodup ?_⟩
    have hsub : (table.map Prod.snd).map Weight.TargetNode ⊆ ws.map Weight.TargetNode :=
      fun t ht => (hall.mem_iff t).mp ht
    have hperm := (List.Nodup.subperm hall.nodup hsub).perm_of_length_le (by simp [hsize])
    exact hperm.nodup_iff.mp hall.nodup
  · exact ⟨_, if_neg hsize, hall.perm (List.Perm.refl ws) (c.visit_perm _)⟩

theorem combineWeights_spec (c : Containers) {ws : List Weight} (hws : WellFormed ws)
    (hne : ws ≠ []) : ∃ cs, combineWeights c ws = some cs ∧ Combined ws cs := by
  unfold combineWeights
  split
  · exact combineWeightsByHashing_spec c hws
  · exact combineWeightsBySorting_spec c hws hne

end SmlnjLlvm.BlockFrequency
