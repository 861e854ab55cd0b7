import Mathlib.Data.Finset.Dedup
import Mathlib.Data.List.Sort
import SmlnjLlvm.Library.SpanningTrees

/-!
# The members of a component by edge weights

`scc_member_iterator` selects a spanning tree of the greatest weight with union-find
groups, and visits the nodes along it: a node when its last selected edge is gone.
-/

namespace SmlnjLlvm.SCCMembers

open Relation SpanningTrees

/-- Nodes with weighted edges, which are told apart by their addresses. -/
structure Graph (NodeType EdgeType : Type) where
  Edges : NodeType → List EdgeType
  Source : EdgeType → NodeType
  Target : EdgeType → NodeType
  Weight : EdgeType → ℕ
  source_of_mem : ∀ Node, ∀ Edge ∈ Edges Node, Source Edge = Node
  nodup : ∀ Node, (Edges Node).Nodup

variable {NodeType EdgeType : Type} [DecidableEq NodeType]

/-- The groups of the `NodeInfo` of each node; `Rank` is 32 bits wide. -/
structure Groups (NodeType : Type) where
  Group : NodeType → NodeType
  Rank : NodeType → ℕ

def find : ℕ → NodeType → Groups NodeType → Option (NodeType × Groups NodeType)
  | 0, _, _ => none
  | fuel + 1, Node, g =>
    if g.Group Node ≠ Node then do
      let (root, g) ← find fuel (g.Group Node) g
      return (root, { g with Group := Function.update g.Group Node root })
    else some (Node, g)

def unionGroups (G : Graph NodeType EdgeType) (fuel : ℕ) (Edge : EdgeType)
    (g : Groups NodeType) : Option (Bool × Groups NodeType) := do
  let (G1, g) ← find fuel (G.Source Edge) g
  let (G2, g) ← find fuel (G.Target Edge) g
  if G1 = G2 then return (false, g)
  else if g.Rank G1 < g.Rank G1 then
    return (true, { g with Group := Function.update g.Group G1 G2 })
  else
    return (true, {
      Group := Function.update g.Group G2 G1
      Rank := if g.Rank G1 = g.Rank G2 then
          Function.update g.Rank G2 ((g.Rank G2 + 1) % 2 ^ 32) else g.Rank })

def SortedEdges (G : Graph NodeType EdgeType) (InputNodes : List NodeType) : List EdgeType :=
  (InputNodes.flatMap fun Node => (G.Edges Node).filter (G.Target · ∈ InputNodes)).foldl
    (fun SortedEdges Edge => SortedEdges.orderedInsert (G.Weight · > G.Weight ·) Edge) []

variable [DecidableEq EdgeType]

def selectEdges (G : Graph NodeType EdgeType) (fuel : ℕ) :
    List EdgeType → Groups NodeType → Finset EdgeType → Option (Finset EdgeType)
  | [], _, MSTEdges => some MSTEdges
  | Edge :: rest, g, MSTEdges => do
      let (joined, g) ← unionGroups G fuel Edge g
      selectEdges G fuel rest g (if joined then insert Edge MSTEdges else MSTEdges)

def initQueue (G : Graph NodeType EdgeType) (Incoming : NodeType → Finset EdgeType)
    (SortedEdges : List EdgeType) : List NodeType × Finset NodeType :=
  SortedEdges.foldl (fun (Queue, Visited) Edge =>
    if G.Source Edge ∉ Visited ∧ Incoming (G.Source Edge) = ∅ then
      (Queue ++ [G.Source Edge], insert (G.Source Edge) Visited)
    else (Queue, Visited)) ([], ∅)

def walkEdge (G : Graph NodeType EdgeType) (MSTEdges : Finset EdgeType) (Edge : EdgeType)
    (s : (NodeType → Finset EdgeType) × List NodeType) :
    (NodeType → Finset EdgeType) × List NodeType :=
  let Incoming := Function.update s.1 (G.Target Edge) ((s.1 (G.Target Edge)).erase Edge)
  if Edge ∈ MSTEdges ∧ Incoming (G.Target Edge) = ∅ then (Incoming, s.2 ++ [G.Target Edge])
  else (Incoming, s.2)

def walk (G : Graph NodeType EdgeType) (MSTEdges : Finset EdgeType) :
    ℕ → List NodeType → (NodeType → Finset EdgeType) → List NodeType → Option (List NodeType)
  | _, [], _, Nodes => some Nodes
  | 0, _ :: _, _, _ => none
  | fuel + 1, Node :: Queue, Incoming, Nodes =>
    let (Incoming, Queue) :=
      (G.Edges Node).foldl (fun s Edge => walkEdge G MSTEdges Edge s) (Incoming, Queue)
    walk G MSTEdges fuel Queue Incoming (Nodes ++ [Node])

def members (G : Graph NodeType EdgeType) (InputNodes : List NodeType) :
    Option (List NodeType × Finset EdgeType) :=
  if InputNodes.length ≤ 1 then some (InputNodes, ∅)
  else do
    let SortedEdges := SortedEdges G InputNodes
    let MSTEdges ← selectEdges G InputNodes.length SortedEdges { Group := id, Rank := fun _ => 0 } ∅
    let Incoming Node := MSTEdges.filter (G.Target · = Node)
    let Queue := (initQueue G Incoming SortedEdges).1
    let Nodes ← walk G MSTEdges InputNodes.length Queue Incoming []
    if InputNodes.length = Nodes.length then return (Nodes.reverse, MSTEdges) else none

section Groups

omit [DecidableEq EdgeType]

variable {G : Graph NodeType EdgeType} {g : Groups NodeType} {c Group : NodeType → NodeType}
  {height : NodeType → ℕ}

/-- The root of every node is its colour, at the given height or less. -/
structure Rooted (Group c : NodeType → NodeType) (height : NodeType → ℕ) : Prop where
  colour : ∀ x, c (Group x) = c x
  root : ∀ x, Group x = x → c x = x ∧ height x = 0
  descends : ∀ x, Group x ≠ x → height (Group x) < height x

omit [DecidableEq NodeType] in
theorem Rooted.group_colour (h : Rooted Group c height) (x : NodeType) : Group (c x) = c x := by
  induction hx : height x using Nat.strong_induction_on generalizing x with
  | _ n ih =>
    by_cases hroot : Group x = x
    · rw [(h.root x hroot).1, hroot]
    · have hlt := h.descends x hroot
      rw [← h.colour x]
      exact ih _ (hx ▸ hlt) (Group x) rfl

theorem Rooted.compress (h : Rooted Group c height) (x : NodeType) :
    Rooted (Function.update Group x (c x)) c height := by
  have hroot := h.root _ (h.group_colour x)
  refine ⟨fun y => ?_, fun y hy => ?_, fun y hy => ?_⟩ <;> rcases eq_or_ne y x with rfl | hyx
  · rw [Function.update_self, hroot.1]
  · rw [Function.update_of_ne hyx, h.colour y]
  · rw [Function.update_self] at hy
    rwa [hy] at hroot
  · rw [Function.update_of_ne hyx] at hy
    exact h.root y hy
  · rw [Function.update_self] at hy ⊢
    have hother : Group y ≠ y := fun hself => hy (h.root y hself).1
    rw [hroot.2]
    exact Nat.zero_lt_of_lt (h.descends y hother)
  · rw [Function.update_of_ne hyx] at hy ⊢
    exact h.descends y hy

theorem find_spec {fuel : ℕ} (h : Rooted g.Group c height) {x : NodeType} (hx : height x < fuel) :
    ∃ g', find fuel x g = some (c x, g') ∧ Rooted g'.Group c height := by
  induction fuel generalizing x with
  | zero => exact absurd hx (Nat.not_lt_zero _)
  | succ fuel ih =>
    unfold find
    by_cases hroot : g.Group x = x
    · rw [if_neg (not_not.mpr hroot), (h.root x hroot).1]
      exact ⟨g, rfl, h⟩
    · obtain ⟨g₁, hrun, h₁⟩ := ih (Nat.lt_of_lt_of_le (h.descends x hroot) (Nat.lt_succ_iff.mp hx))
      rw [if_pos hroot, hrun, h.colour x]
      exact ⟨_, rfl, h₁.compress x⟩

theorem Rooted.merge (h : Rooted Group c height) {e : EdgeType}
    (hne : c (G.Source e) ≠ c (G.Target e)) :
    Rooted (Function.update Group (c (G.Target e)) (c (G.Source e))) (merge G.Source G.Target c e)
      fun x => if c x = c (G.Target e) then height x + 1 else height x := by
  have hs := h.root _ (h.group_colour (G.Source e))
  have ht := h.root _ (h.group_colour (G.Target e))
  refine ⟨fun y => ?_, fun y hy => ?_, fun y hy => ?_⟩ <;>
    rcases eq_or_ne y (c (G.Target e)) with rfl | hyt
  · simp [SpanningTrees.merge, hs.1, ht.1]
  · rw [Function.update_of_ne hyt]
    exact merge_congr (h.colour y)
  · exact absurd (by simpa using hy) hne
  · rw [Function.update_of_ne hyt] at hy
    obtain ⟨hcy, hheight⟩ := h.root y hy
    rw [SpanningTrees.merge, hcy, if_neg hyt, if_neg hyt]
    exact ⟨rfl, hheight⟩
  · simp [hs.1, hs.2, ht.1, hne]
  · rw [Function.update_of_ne hyt] at hy ⊢
    have hlt := h.descends y hy
    rw [h.colour y]
    split <;> omega

theorem unionGroups_spec {fuel : ℕ} {e : EdgeType} (h : Rooted g.Group c height)
    (hs : height (G.Source e) < fuel) (ht : height (G.Target e) < fuel) :
    (c (G.Source e) = c (G.Target e) ∧
        ∃ g', unionGroups G fuel e g = some (false, g') ∧ Rooted g'.Group c height) ∨
      (c (G.Source e) ≠ c (G.Target e) ∧
        ∃ g', unionGroups G fuel e g = some (true, g') ∧
          Rooted g'.Group (merge G.Source G.Target c e)
            fun x => if c x = c (G.Target e) then height x + 1 else height x) := by
  obtain ⟨g₁, hfind₁, h₁⟩ := find_spec h hs
  obtain ⟨g₂, hfind₂, h₂⟩ := find_spec h₁ ht
  have hrun : unionGroups G fuel e g = if c (G.Source e) = c (G.Target e) then some (false, g₂) else
      some (true, {
        Group := Function.update g₂.Group (c (G.Target e)) (c (G.Source e))
        Rank := if g₂.Rank (c (G.Source e)) = g₂.Rank (c (G.Target e)) then
            Function.update g₂.Rank (c (G.Target e)) ((g₂.Rank (c (G.Target e)) + 1) % 2 ^ 32)
          else g₂.Rank }) := by
    simp [unionGroups, hfind₁, hfind₂]
  by_cases heq : c (G.Source e) = c (G.Target e)
  · exact Or.inl ⟨heq, g₂, hrun.trans (if_pos heq), h₂⟩
  · exact Or.inr ⟨heq, _, hrun.trans (if_neg heq), h₂.merge heq⟩

end Groups

/-! ## Edges by weight -/

section Edges

variable {G : Graph NodeType EdgeType} {InputNodes : List NodeType} {e : EdgeType}

omit [DecidableEq NodeType] [DecidableEq EdgeType] in
theorem pairwise_orderedInsert {l : List EdgeType} (h : l.Pairwise (G.Weight · ≥ G.Weight ·))
    (e : EdgeType) :
    (l.orderedInsert (G.Weight · > G.Weight ·) e).Pairwise (G.Weight · ≥ G.Weight ·) := by
  induction l with
  | nil => simp
  | cons f l ih =>
    obtain ⟨hf, hl⟩ := List.pairwise_cons.mp h
    rw [List.orderedInsert_cons]
    split
    · refine List.pairwise_cons.mpr ⟨List.forall_mem_cons.mpr ⟨by omega, fun a ha => ?_⟩, h⟩
      have := hf a ha
      omega
    · refine List.pairwise_cons.mpr ⟨fun a ha => ?_, ih hl⟩
      rcases (List.mem_orderedInsert _).mp ha with rfl | ha
      · omega
      · exact hf a ha

omit [DecidableEq EdgeType] in
theorem sortedEdges_spec : (∀ e, e ∈ SortedEdges G InputNodes ↔
      G.Source e ∈ InputNodes ∧ G.Target e ∈ InputNodes ∧ e ∈ G.Edges (G.Source e)) ∧
    (SortedEdges G InputNodes).Pairwise (G.Weight · ≥ G.Weight ·) := by
  have hfold : ∀ l acc : List EdgeType, acc.Pairwise (G.Weight · ≥ G.Weight ·) →
      (∀ e, e ∈ l.foldl (fun acc e => acc.orderedInsert (G.Weight · > G.Weight ·) e) acc ↔
        e ∈ l ∨ e ∈ acc) ∧
      (l.foldl (fun acc e => acc.orderedInsert (G.Weight · > G.Weight ·) e) acc).Pairwise
        (G.Weight · ≥ G.Weight ·) := by
    intro l
    induction l with
    | nil => simp
    | cons f l ih =>
      intro acc hacc
      obtain ⟨hmem, hsorted⟩ := ih _ (pairwise_orderedInsert hacc f)
      refine ⟨fun e => ?_, hsorted⟩
      rw [List.foldl_cons, hmem e, List.mem_orderedInsert, List.mem_cons, or_left_comm, or_assoc]
  obtain ⟨hmem, hsorted⟩ := hfold _ [] List.Pairwise.nil
  refine ⟨fun e => ?_, hsorted⟩
  rw [SortedEdges, hmem e]
  simp only [List.not_mem_nil, or_false, List.mem_flatMap, List.mem_filter, decide_eq_true_eq]
  constructor
  · rintro ⟨Node, hNode, he, ht⟩
    obtain rfl := G.source_of_mem Node e he
    exact ⟨hNode, ht, he⟩
  · exact fun ⟨hs, ht, he⟩ => ⟨G.Source e, hs, he, ht⟩

theorem selectEdges_spec {fuel : ℕ} {N : Finset NodeType} {E T : Finset EdgeType}
    {rest l : List EdgeType} {g : Groups NodeType} {c : NodeType → NodeType}
    {height : NodeType → ℕ} (hfuel : N.card ≤ fuel)
    (h : Selected G.Source G.Target G.Weight N E l c T) (hg : Rooted g.Group c height)
    (hheight : ∀ x, height x ≤ T.card) (hends : ∀ e ∈ rest, G.Source e ∈ N ∧ G.Target e ∈ N)
    (hsorted : rest.Pairwise (G.Weight · ≥ G.Weight ·))
    (hle : ∀ e ∈ rest, ∀ f ∈ l, G.Weight e ≤ G.Weight f) :
    ∃ T' c' l', selectEdges G fuel rest g T = some T' ∧ (∀ e, e ∈ l' ↔ e ∈ rest ∨ e ∈ l) ∧
      Selected G.Source G.Target G.Weight N E l' c' T' := by
  induction rest generalizing l g c height T with
  | nil => exact ⟨T, c, l, rfl, by simp, h⟩
  | cons e rest ih =>
    obtain ⟨⟨hs, ht⟩, hends⟩ := List.forall_mem_cons.mp hends
    obtain ⟨hlight, hsorted⟩ := List.pairwise_cons.mp hsorted
    obtain ⟨hle, hle'⟩ := List.forall_mem_cons.mp hle
    have hdeep : ∀ x, height x < fuel := by
      intro x
      have hcount := h.count
      have hpos := (Finset.image_nonempty.mpr ⟨_, hs⟩ : (N.image c).Nonempty).card_pos
      have := hheight x
      omega
    have hnext : ∀ f ∈ rest, ∀ d ∈ e :: l, G.Weight f ≤ G.Weight d := fun f hf =>
      List.forall_mem_cons.mpr ⟨hlight f hf, hle' f hf⟩
    have hmem : ∀ {l' : List EdgeType}, (∀ f, f ∈ l' ↔ f ∈ rest ∨ f ∈ e :: l) →
        ∀ f, f ∈ l' ↔ f ∈ e :: rest ∨ f ∈ l := fun hl' f => by
      rw [hl' f, List.mem_cons, List.mem_cons, or_left_comm, or_assoc]
    unfold selectEdges
    rcases unionGroups_spec hg (hdeep _) (hdeep _) with ⟨heq, g', hrun, hg'⟩ | ⟨hne, g', hrun, hg'⟩
    · rw [hrun]
      obtain ⟨T', c', l', hrest, hl', h'⟩ := ih (h.skip hle heq) hg' hheight hends hsorted hnext
      exact ⟨T', c', l', hrest, hmem hl', h'⟩
    · rw [hrun]
      have hnew : e ∉ T := fun he => hne (h.joined e (h.subset e he))
      obtain ⟨T', c', l', hrest, hl', h'⟩ := ih (h.take hle hs ht hne) hg' (fun x => by
        have := hheight x
        rw [Finset.card_insert_of_notMem hnew]
        split <;> omega) hends hsorted hnext
      exact ⟨T', c', l', hrest, hmem hl', h'⟩

theorem initQueue_spec (Incoming : NodeType → Finset EdgeType) (l : List EdgeType) :
    (initQueue G Incoming l).1.Nodup ∧ ∀ v, v ∈ (initQueue G Incoming l).1 ↔
      (∃ e ∈ l, G.Source e = v) ∧ Incoming v = ∅ := by
  have hfold : ∀ (l : List EdgeType) (Q : List NodeType), Q.Nodup →
      let r := l.foldl (fun (Queue, Visited) Edge =>
        if G.Source Edge ∉ Visited ∧ Incoming (G.Source Edge) = ∅ then
          (Queue ++ [G.Source Edge], insert (G.Source Edge) Visited)
        else (Queue, Visited)) (Q, Q.toFinset)
      r.1.Nodup ∧ ∀ v, v ∈ r.1 ↔ v ∈ Q ∨ (∃ e ∈ l, G.Source e = v) ∧ Incoming v = ∅ := by
    intro l
    induction l with
    | nil => simp
    | cons e l ih =>
      intro Q hQ
      rw [List.foldl_cons]
      by_cases hnew : G.Source e ∉ Q.toFinset ∧ Incoming (G.Source e) = ∅
      · have hset : insert (G.Source e) Q.toFinset = (Q ++ [G.Source e]).toFinset := by
          ext v
          simp [or_comm]
        have hQ' : (Q ++ [G.Source e]).Nodup := by
          rw [List.nodup_append_comm, List.singleton_append, List.nodup_cons]
          exact ⟨fun h => hnew.1 (List.mem_toFinset.mpr h), hQ⟩
        obtain ⟨hnodup, hmem⟩ := ih (Q ++ [G.Source e]) hQ'
        simp only [if_pos hnew, hset]
        refine ⟨hnodup, fun v => (hmem v).trans ?_⟩
        simp only [List.mem_append, List.mem_singleton, List.exists_mem_cons_iff]
        grind
      · obtain ⟨hnodup, hmem⟩ := ih Q hQ
        simp only [if_neg hnew]
        refine ⟨hnodup, fun v => (hmem v).trans ?_⟩
        rw [List.mem_toFinset] at hnew
        simp only [List.exists_mem_cons_iff]
        grind
  have h := hfold l [] List.nodup_nil
  simpa [initQueue] using h

end Edges

/-! ## The walk -/

section Walk

variable {G : Graph NodeType EdgeType} {N : Finset NodeType} {E T : Finset EdgeType}
  {seen : Set EdgeType} {Done Queue : List NodeType} {Incoming : NodeType → Finset EdgeType}

/-- The nodes that are done or queued are those that no selected edge enters any more. -/
structure Walking (G : Graph NodeType EdgeType) (N : Finset NodeType) (T : Finset EdgeType)
    (seen : Set EdgeType) (Done : List NodeType)
    (s : (NodeType → Finset EdgeType) × List NodeType) : Prop where
  incoming : ∀ v e, e ∈ s.1 v ↔ e ∈ T ∧ G.Target e = v ∧ e ∉ seen
  listed : ∀ v, v ∈ Done ++ s.2 ↔ v ∈ N ∧ s.1 v = ∅
  nodup : (Done ++ s.2).Nodup
  sources : ∀ e ∈ seen, G.Source e ∈ Done
  ordered : (Done ++ s.2).Pairwise fun a b => ∀ e ∈ T, ¬(G.Source e = b ∧ G.Target e = a)

theorem Walking.edge {s : (NodeType → Finset EdgeType) × List NodeType}
    (h : Walking G N T seen Done s) {e : EdgeType} (hT : ∀ e ∈ T, G.Target e ∈ N) (he : e ∉ seen)
    (hs : G.Source e ∈ Done) : Walking G N T (insert e seen) Done (walkEdge G T e s) := by
  have hincoming : ∀ v f, f ∈ Function.update s.1 (G.Target e) ((s.1 (G.Target e)).erase e) v ↔
      f ∈ T ∧ G.Target f = v ∧ f ∉ insert e seen := by
    intro v f
    rw [Set.mem_insert_iff, not_or]
    rcases eq_or_ne v (G.Target e) with rfl | hv
    · rw [Function.update_self, Finset.mem_erase, h.incoming]
      tauto
    · rw [Function.update_of_ne hv, h.incoming]
      have hne : G.Target f = v → f ≠ e := by
        rintro rfl rfl
        exact hv rfl
      tauto
  have hsources : ∀ f ∈ insert e seen, G.Source f ∈ Done := by
    rintro f (rfl | hf)
    · exact hs
    · exact h.sources f hf
  unfold walkEdge
  by_cases hpush : e ∈ T ∧ Function.update s.1 (G.Target e) ((s.1 (G.Target e)).erase e)
      (G.Target e) = ∅
  · rw [if_pos hpush]
    have hentered : e ∈ s.1 (G.Target e) := (h.incoming _ e).mpr ⟨hpush.1, rfl, he⟩
    have hnew : G.Target e ∉ Done ++ s.2 := fun hmem => by
      rw [((h.listed _).mp hmem).2] at hentered
      exact Finset.notMem_empty e hentered
    refine ⟨hincoming, fun v => ?_, ?_, hsources, ?_⟩
    · rw [← List.append_assoc, List.mem_append, h.listed v, List.mem_singleton]
      rcases eq_or_ne v (G.Target e) with rfl | hv
      · exact iff_of_true (Or.inr rfl) ⟨hT e hpush.1, hpush.2⟩
      · simp [hv]
    · rw [← List.append_assoc, List.nodup_append_comm, List.singleton_append, List.nodup_cons]
      exact ⟨hnew, h.nodup⟩
    · -- an edge from the new node to a listed one would be gone, with its source done
      rw [← List.append_assoc, List.pairwise_append]
      refine ⟨h.ordered, List.pairwise_singleton _ _, fun a ha b hb f hf => ?_⟩
      rw [List.mem_singleton.mp hb]
      rintro ⟨hfs, hft⟩
      have hseen : f ∈ seen := by
        by_contra hnot
        have hmem := (h.incoming a f).mpr ⟨hf, hft, hnot⟩
        rw [((h.listed a).mp ha).2] at hmem
        exact Finset.notMem_empty f hmem
      exact hnew (List.mem_append_left _ (hfs ▸ h.sources f hseen))
  · rw [if_neg hpush]
    refine ⟨hincoming, fun v => (h.listed v).trans (and_congr_right fun _ => ?_), h.nodup, hsources,
      h.ordered⟩
    dsimp only
    rcases eq_or_ne v (G.Target e) with rfl | hv
    · by_cases heT : e ∈ T
      · have hentered : e ∈ s.1 (G.Target e) := (h.incoming _ e).mpr ⟨heT, rfl, he⟩
        exact iff_of_false (Finset.ne_empty_of_mem hentered) fun h => hpush ⟨heT, h⟩
      · rw [Function.update_self,
          Finset.erase_eq_of_notMem fun hmem => heT ((h.incoming _ e).mp hmem).1]
    · rw [Function.update_of_ne hv]

theorem Walking.edges {l : List EdgeType} {s : (NodeType → Finset EdgeType) × List NodeType}
    (h : Walking G N T seen Done s) (hT : ∀ e ∈ T, G.Target e ∈ N) (hl : l.Nodup)
    (hnew : ∀ e ∈ l, e ∉ seen ∧ G.Source e ∈ Done) :
    Walking G N T (seen ∪ {e | e ∈ l}) Done (l.foldl (fun s e => walkEdge G T e s) s) := by
  induction l generalizing seen s with
  | nil => simpa using h
  | cons e l ih =>
    obtain ⟨hel, hl⟩ := List.nodup_cons.mp hl
    obtain ⟨⟨he, hs⟩, hnew⟩ := List.forall_mem_cons.mp hnew
    have hrest : ∀ f ∈ l, f ∉ insert e seen ∧ G.Source f ∈ Done := by
      intro f hf
      refine ⟨?_, (hnew f hf).2⟩
      rintro (rfl | hseen)
      · exact hel hf
      · exact (hnew f hf).1 hseen
    have hwalk := ih (h.edge hT he hs) hl hrest
    have hset : insert e seen ∪ {f | f ∈ l} = seen ∪ {f | f ∈ e :: l} := by
      ext f
      simp [or_left_comm, or_assoc]
    rwa [hset] at hwalk

theorem Walking.complete (htree : IsSpanningTree G.Source G.Target N E T)
    (hE : ∀ e ∈ T, G.Source e ∈ N) (h : Walking G N T seen Done (Incoming, []))
    (hgone : ∀ e ∈ T, G.Source e ∈ Done → e ∈ seen) (v : NodeType) : v ∈ Done ↔ v ∈ N := by
  have hlisted : ∀ v, v ∈ Done ↔ v ∈ N ∧ Incoming v = ∅ := by simpa using h.listed
  have hall : N \ Done.toFinset = ∅ := by
    by_contra hne
    obtain ⟨x, hx, hsource⟩ :=
      htree.exists_source Finset.sdiff_subset (Finset.nonempty_iff_ne_empty.mpr hne)
    obtain ⟨hxN, hxDone⟩ := Finset.mem_sdiff.mp hx
    rw [List.mem_toFinset, hlisted x, not_and] at hxDone
    obtain ⟨e, he⟩ := Finset.nonempty_iff_ne_empty.mpr (hxDone hxN)
    obtain ⟨heT, het, hseen⟩ := (h.incoming x e).mp he
    apply hsource e heT het
    exact Finset.mem_sdiff.mpr ⟨hE e heT, fun hDone =>
      hseen (hgone e heT (List.mem_toFinset.mp hDone))⟩
  exact ⟨fun hv => ((hlisted v).mp hv).1, fun hv =>
    List.mem_toFinset.mp (Finset.sdiff_eq_empty_iff_subset.mp hall hv)⟩

theorem walk_spec {fuel : ℕ} (htree : IsSpanningTree G.Source G.Target N E T)
    (hE : ∀ e ∈ T, G.Source e ∈ N ∧ G.Target e ∈ N ∧ e ∈ G.Edges (G.Source e))
    (h : Walking G N T seen Done (Incoming, Queue))
    (hgone : ∀ e ∈ T, G.Source e ∈ Done → e ∈ seen) (hfuel : N.card ≤ Done.length + fuel) :
    ∃ L, walk G T fuel Queue Incoming Done = some L ∧ L.Nodup ∧ (∀ v, v ∈ L ↔ v ∈ N) ∧
      L.Pairwise fun a b => ∀ e ∈ T, ¬(G.Source e = b ∧ G.Target e = a) := by
  induction fuel generalizing seen Done Incoming Queue with
  | zero =>
    cases Queue with
    | nil =>
      exact ⟨Done, rfl, by simpa using h.nodup,
        h.complete htree (fun e he => (hE e he).1) hgone, by simpa using h.ordered⟩
    | cons Node Queue =>
      have hsub : (Done ++ Node :: Queue).toFinset ⊆ N := fun v hv =>
        ((h.listed v).mp (List.mem_toFinset.mp hv)).1
      have hcard := Finset.card_le_card hsub
      rw [List.toFinset_card_of_nodup h.nodup, List.length_append, List.length_cons] at hcard
      omega
  | succ fuel ih =>
    cases Queue with
    | nil =>
      exact ⟨Done, rfl, by simpa using h.nodup,
        h.complete htree (fun e he => (hE e he).1) hgone, by simpa using h.ordered⟩
    | cons Node Queue =>
      have hassoc : Done ++ Node :: Queue = Done ++ [Node] ++ Queue := by simp
      have hpop : Walking G N T seen (Done ++ [Node]) (Incoming, Queue) :=
        ⟨h.incoming, hassoc ▸ h.listed, hassoc ▸ h.nodup,
          fun e he => List.mem_append_left _ (h.sources e he), hassoc ▸ h.ordered⟩
      have hnot : Node ∉ Done := fun hmem =>
        (List.nodup_append'.mp h.nodup).2.2 hmem List.mem_cons_self
      have hnew : ∀ e ∈ G.Edges Node, e ∉ seen ∧ G.Source e ∈ Done ++ [Node] := by
        intro e he
        have hs := G.source_of_mem Node e he
        exact ⟨fun hseen => hnot (hs ▸ h.sources e hseen), by simp [hs]⟩
      refine ih (hpop.edges (fun e he => (hE e he).2.1) (G.nodup Node) hnew)
        (fun e he hs => ?_) (by rw [List.length_append, List.length_singleton]; omega)
      rcases List.mem_append.mp hs with hs | hs
      · exact Or.inl (hgone e he hs)
      · exact Or.inr (List.mem_singleton.mp hs ▸ (hE e he).2.2)

end Walk

/-! ## The order of the members -/

section Members

variable {G : Graph NodeType EdgeType} {InputNodes : List NodeType}

def innerEdges (G : Graph NodeType EdgeType) (InputNodes : List NodeType) : Finset EdgeType :=
  (InputNodes.flatMap G.Edges).toFinset.filter (G.Target · ∈ InputNodes)

theorem mem_innerEdges {e : EdgeType} : e ∈ innerEdges G InputNodes ↔
    G.Source e ∈ InputNodes ∧ G.Target e ∈ InputNodes ∧ e ∈ G.Edges (G.Source e) := by
  simp only [innerEdges, Finset.mem_filter, List.mem_toFinset, List.mem_flatMap]
  constructor
  · rintro ⟨⟨Node, hNode, he⟩, ht⟩
    obtain rfl := G.source_of_mem Node e he
    exact ⟨hNode, ht, he⟩
  · exact fun ⟨hs, ht, he⟩ => ⟨⟨_, hs, he⟩, ht⟩

def StronglyConnected (G : Graph NodeType EdgeType) (InputNodes : List NodeType) : Prop :=
  ∀ u ∈ InputNodes, ∀ v ∈ InputNodes,
    ReflTransGen (Joins G.Source G.Target (innerEdges G InputNodes)) u v

abbrev SpanningTree (G : Graph NodeType EdgeType) (InputNodes : List NodeType)
    (T : Finset EdgeType) : Prop :=
  IsSpanningTree G.Source G.Target InputNodes.toFinset (innerEdges G InputNodes) T

theorem exists_edge (hnodup : InputNodes.Nodup) (hstrong : StronglyConnected G InputNodes)
    (htwo : 1 < InputNodes.length) {v : NodeType} (hv : v ∈ InputNodes) :
    ∃ e ∈ innerEdges G InputNodes, G.Source e = v := by
  obtain ⟨w, hw, hne⟩ : ∃ w ∈ InputNodes, w ≠ v := by
    rw [← List.toFinset_card_of_nodup hnodup] at htwo
    obtain ⟨w, hw, hne⟩ := Finset.exists_mem_ne htwo v
    exact ⟨w, List.mem_toFinset.mp hw, hne⟩
  rcases ReflTransGen.cases_head (hstrong v hv w hw) with rfl | ⟨x, ⟨e, he, hs, -⟩, -⟩
  · exact absurd rfl hne
  · exact ⟨e, he, hs⟩

/-- The selected edges are a spanning tree of the greatest weight, and the nodes are ordered
with the target of each of them before its source. -/
theorem members_spanning (G : Graph NodeType EdgeType) (InputNodes : List NodeType)
    (hnodup : InputNodes.Nodup) (hstrong : StronglyConnected G InputNodes) :
    ∃ Nodes MSTEdges, members G InputNodes = some (Nodes, MSTEdges) ∧ Nodes.Perm InputNodes ∧
      SpanningTree G InputNodes MSTEdges ∧
      (∀ T, SpanningTree G InputNodes T →
        ∑ e ∈ T, G.Weight e ≤ ∑ e ∈ MSTEdges, G.Weight e) ∧
      ∀ e ∈ MSTEdges, Nodes.idxOf (G.Target e) < Nodes.idxOf (G.Source e) := by
  have hcard : InputNodes.toFinset.card = InputNodes.length := List.toFinset_card_of_nodup hnodup
  unfold members
  by_cases hshort : InputNodes.length ≤ 1
  · rw [if_pos hshort]
    have hone : ∀ x ∈ InputNodes, ∀ y ∈ InputNodes, x = y := fun x hx y hy =>
      Finset.card_le_one.mp (hcard.trans_le hshort) x (List.mem_toFinset.mpr hx) y
        (List.mem_toFinset.mpr hy)
    refine ⟨_, _, rfl, List.Perm.refl _, ⟨Finset.empty_subset _, fun x hx y hy => ?_, ?_⟩,
      fun T hT => ?_, by simp⟩
    · obtain rfl := hone x (List.mem_toFinset.mp hx) y (List.mem_toFinset.mp hy)
      exact EqvGen.refl x
    · rw [Finset.card_empty]
      omega
    · have hT := hT.card
      rw [Finset.card_eq_zero.mp (by omega : T.card = 0)]
  rw [if_neg hshort]
  obtain ⟨hsorted, hdecreasing⟩ := @sortedEdges_spec _ _ _ G InputNodes
  have hinner : ∀ e, e ∈ SortedEdges G InputNodes ↔ e ∈ innerEdges G InputNodes :=
    fun e => (hsorted e).trans mem_innerEdges.symm
  have hstart : Rooted ({ Group := id, Rank := fun _ => 0 } : Groups NodeType).Group id fun _ => 0 :=
    ⟨fun _ => rfl, fun _ _ => ⟨rfl, rfl⟩, fun x hx => absurd rfl hx⟩
  have hnone : Selected G.Source G.Target G.Weight InputNodes.toFinset (innerEdges G InputNodes)
      [] id ∅ := Selected.start
  obtain ⟨T, c, l, hselect, hl, hselected⟩ := selectEdges_spec hcard.le hnone hstart
    (fun _ => Nat.zero_le _) (fun e he => by simp [(hsorted e).mp he]) hdecreasing (by simp)
  obtain ⟨htree, hmax⟩ := hselected.tree (fun e => by simp [hl, hinner]) fun x hx y hy =>
    EqvGen.reflTransGen_le_eqvGen _ _ _ (hstrong x (List.mem_toFinset.mp hx) y (List.mem_toFinset.mp hy))
  have hT : ∀ e ∈ T, G.Source e ∈ InputNodes.toFinset ∧ G.Target e ∈ InputNodes.toFinset ∧
      e ∈ G.Edges (G.Source e) := fun e he => by
    simpa using mem_innerEdges.mp (htree.subset he)
  obtain ⟨hqueue, hqueued⟩ := initQueue_spec (G := G) (fun v => T.filter (G.Target · = v))
    (SortedEdges G InputNodes)
  have hlisted : ∀ v, v ∈ (initQueue G (fun v => T.filter (G.Target · = v))
      (SortedEdges G InputNodes)).1 ↔ v ∈ InputNodes.toFinset ∧ T.filter (G.Target · = v) = ∅ := by
    intro v
    rw [hqueued v, List.mem_toFinset]
    refine and_congr_left fun _ => ⟨?_, fun hv => ?_⟩
    · rintro ⟨e, he, rfl⟩
      exact ((hsorted e).mp he).1
    · obtain ⟨e, he, hs⟩ := exists_edge hnodup hstrong (by omega) hv
      exact ⟨e, (hinner e).mpr he, hs⟩
  have hwalking : Walking G InputNodes.toFinset T ∅ [] (fun v => T.filter (G.Target · = v),
      (initQueue G (fun v => T.filter (G.Target · = v)) (SortedEdges G InputNodes)).1) := by
    refine ⟨fun v e => by simp, hlisted, hqueue, by simp, ?_⟩
    refine List.pairwise_of_forall_mem_list fun a ha b hb e he => ?_
    rintro ⟨-, ht⟩
    exact Finset.eq_empty_iff_forall_notMem.mp ((hlisted a).mp ha).2 e (by simp [he, ht])
  have hfuel : InputNodes.toFinset.card ≤ ([] : List NodeType).length + InputNodes.length := by
    simp [hcard]
  obtain ⟨L, hwalk, hL, hmem, hordered⟩ := walk_spec htree hT hwalking (by simp) hfuel
  have hperm : L.Perm InputNodes := (List.perm_ext_iff_of_nodup hL hnodup).mpr fun v => by
    rw [hmem v, List.mem_toFinset]
  refine ⟨L.reverse, T, ?_, L.reverse_perm.trans hperm, htree, hmax, fun e he => ?_⟩
  · simp only [hselect, Option.bind_eq_bind, Option.bind_some, hwalk]
    exact if_pos hperm.length_eq.symm
  · obtain ⟨hs, ht, -⟩ := hT e he
    have hin : ∀ v, v ∈ InputNodes.toFinset → v ∈ L.reverse := fun v hv =>
      List.mem_reverse.mpr ((hmem v).mpr hv)
    have hloop : G.Target e ≠ G.Source e := by
      intro hloop
      obtain ⟨x, hx, hsource⟩ := htree.exists_source (Finset.singleton_subset_iff.mpr ht)
        (Finset.singleton_nonempty _)
      obtain rfl := Finset.mem_singleton.mp hx
      exact hsource e he rfl (by simp [hloop])
    rcases Nat.lt_trichotomy (L.reverse.idxOf (G.Source e)) (L.reverse.idxOf (G.Target e)) with
      hlt | heq | hgt
    · -- the source before the target in the reversed order
      have hreverse := List.pairwise_reverse.mpr hordered
      have hends := List.pairwise_iff_getElem.mp hreverse _ _ (List.idxOf_lt_length_of_mem (hin _ hs))
        (List.idxOf_lt_length_of_mem (hin _ ht)) hlt e he
      rw [List.getElem_idxOf, List.getElem_idxOf] at hends
      exact absurd ⟨rfl, rfl⟩ hends
    · exact absurd ((List.idxOf_inj (hin _ hs)).mp heq).symm hloop
    · exact hgt

end Members

def cycle : Graph (Fin 3) (Fin 3) where
  Edges Node := [Node]
  Source := id
  Target Edge := ⟨(Edge.val + 1) % 3, Nat.mod_lt _ (by decide)⟩
  Weight := [5, 2, 7].get
  source_of_mem _ _ h := List.mem_singleton.mp h
  nodup := List.nodup_singleton

example : members cycle [0, 1, 2] = some ([1, 0, 2], {0, 2}) := by decide

theorem members_spanning_cycle :
    ∃ Nodes MSTEdges, members cycle [0, 1, 2] = some (Nodes, MSTEdges) ∧ Nodes.Perm [0, 1, 2] ∧
      SpanningTree cycle [0, 1, 2] MSTEdges ∧
      (∀ T, SpanningTree cycle [0, 1, 2] T →
        ∑ e ∈ T, cycle.Weight e ≤ ∑ e ∈ MSTEdges, cycle.Weight e) ∧
      ∀ e ∈ MSTEdges, Nodes.idxOf (cycle.Target e) < Nodes.idxOf (cycle.Source e) := by
  refine members_spanning cycle [0, 1, 2] (by decide) fun u _ v _ => ?_
  have hstep : ∀ u, Joins cycle.Source cycle.Target (innerEdges cycle [0, 1, 2]) u (u + 1) := by
    unfold Joins
    decide
  have htwo := (ReflTransGen.single (hstep u)).tail (hstep (u + 1))
  obtain rfl | rfl | rfl : v = u ∨ v = u + 1 ∨ v = u + 1 + 1 := by omega
  · exact ReflTransGen.refl
  · exact ReflTransGen.single (hstep u)
  · exact htwo

end SmlnjLlvm.SCCMembers
