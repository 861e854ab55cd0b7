import Mathlib.Algebra.BigOperators.Intervals
import Mathlib.Algebra.Order.BigOperators.Group.Finset
import Mathlib.Tactic.Ring

/-!
# Siblings of an interval map

The elements of sibling nodes are moved until every node has its new size. Sizes are
`unsigned`, their differences `int`; a failed assertion has no result.
-/

namespace SmlnjLlvm.IntervalMapImpl

def unsigned (x : ℤ) : ℕ := (x % 2 ^ 32).toNat

def int (x : ℤ) : ℤ := x.bmod (2 ^ 32)

variable {T1 T2 : Type}

structure NodeBase (T1 T2 : Type) where
  first : ℕ → T1
  second : ℕ → T2

namespace NodeBase

def assign (N : ℕ) (this : NodeBase T1 T2) (j : ℕ) (Other : NodeBase T1 T2) (i : ℕ) :
    Option (NodeBase T1 T2) :=
  if i < N ∧ j < N then
    some { first := Function.update this.first j (Other.first i)
           second := Function.update this.second j (Other.second i) }
  else none

def copyLoop (N : ℕ) (Other : Option (NodeBase T1 T2)) :
    ℕ → ℕ → ℕ → NodeBase T1 T2 → Option (NodeBase T1 T2)
  | 0, _, _, this => some this
  | Count + 1, i, j, this => do
      let this ← this.assign N j (Other.getD this) i
      copyLoop N Other Count (i + 1) (j + 1) this

def copy (N : ℕ) (this : NodeBase T1 T2) (Other : Option (NodeBase T1 T2)) (i j Count : ℕ) :
    Option (NodeBase T1 T2) :=
  if unsigned (i + Count) ≤ N ∧ unsigned (j + Count) ≤ N then copyLoop N Other Count i j this
  else none

def moveLeft (N : ℕ) (this : NodeBase T1 T2) (i j Count : ℕ) : Option (NodeBase T1 T2) :=
  if j ≤ i then this.copy N none i j Count else none

def moveRightLoop (N i j : ℕ) : ℕ → NodeBase T1 T2 → Option (NodeBase T1 T2)
  | 0, this => some this
  | Count + 1, this => do
      let this ← this.assign N (j + Count) this (i + Count)
      moveRightLoop N i j Count this

def moveRight (N : ℕ) (this : NodeBase T1 T2) (i j Count : ℕ) : Option (NodeBase T1 T2) :=
  if i ≤ j ∧ unsigned (j + Count) ≤ N then moveRightLoop N i j Count this else none

def erase (N : ℕ) (this : NodeBase T1 T2) (i j Size : ℕ) : Option (NodeBase T1 T2) :=
  this.moveLeft N j i (unsigned (Size - j))

def transferToLeftSib (N : ℕ) (this : NodeBase T1 T2) (Size : ℕ) (Sib : NodeBase T1 T2)
    (SSize Count : ℕ) : Option (NodeBase T1 T2 × NodeBase T1 T2) := do
  let Sib ← Sib.copy N (some this) 0 SSize Count
  let this ← this.erase N 0 Count Size
  return (this, Sib)

def transferToRightSib (N : ℕ) (this : NodeBase T1 T2) (Size : ℕ) (Sib : NodeBase T1 T2)
    (SSize Count : ℕ) : Option (NodeBase T1 T2) := do
  let Sib ← Sib.moveRight N 0 Count SSize
  Sib.copy N (some this) (unsigned (Size - Count)) 0 Count

def adjustFromLeftSib (N : ℕ) (this : NodeBase T1 T2) (Size : ℕ) (Sib : NodeBase T1 T2)
    (SSize : ℕ) (Add : ℤ) : Option (ℤ × NodeBase T1 T2 × NodeBase T1 T2) :=
  if Add > 0 then do
    let Count := min (min (unsigned Add) SSize) (unsigned (N - Size))
    let this ← Sib.transferToRightSib N SSize this Size Count
    return (int Count, this, Sib)
  else do
    let Count := min (min (unsigned (-Add)) Size) (unsigned (N - SSize))
    let (this, Sib) ← this.transferToLeftSib N Size Sib SSize Count
    return (int (unsigned (-Count)), this, Sib)

end NodeBase

/-- The nodes behind the pointers `Node[]`, which are distinct, and their sizes. -/
structure Siblings (T1 T2 : Type) where
  Node : ℕ → NodeBase T1 T2
  CurSize : ℕ → ℕ

namespace Siblings

def adjust (N a b : ℕ) (Add : ℤ) (s : Siblings T1 T2) : Option (Siblings T1 T2) := do
  let (d, this, Sib) ← (s.Node b).adjustFromLeftSib N (s.CurSize b) (s.Node a) (s.CurSize a) Add
  return {
    Node := Function.update (Function.update s.Node a Sib) b this
    CurSize := Function.update (Function.update s.CurSize a (unsigned (s.CurSize a - d))) b
      (unsigned (s.CurSize b + d)) }

def takeLeft (N : ℕ) (NewSize : ℕ → ℕ) (n : ℕ) : ℕ → Siblings T1 T2 → Option (Siblings T1 T2)
  | 0, s => some s
  | m + 1, s => do
      let s ← s.adjust N m n (int (unsigned (NewSize n - s.CurSize n)))
      if s.CurSize n ≥ NewSize n then return s else takeLeft N NewSize n m s

def rightTurn (N : ℕ) (NewSize : ℕ → ℕ) (n : ℕ) (s : Siblings T1 T2) :
    Option (Siblings T1 T2) :=
  if s.CurSize n = NewSize n then some s else takeLeft N NewSize n n s

def moveElementsRight (N : ℕ) (NewSize : ℕ → ℕ) :
    ℕ → Siblings T1 T2 → Option (Siblings T1 T2)
  | 0, s => some s
  | n + 1, s => do
      let s ← rightTurn N NewSize (n + 1) s
      moveElementsRight N NewSize n s

def takeRight (N Nodes : ℕ) (NewSize : ℕ → ℕ) (n : ℕ) :
    ℕ → Siblings T1 T2 → Option (Siblings T1 T2)
  | 0, s => some s
  | r + 1, s => do
      let s ← s.adjust N n (Nodes - (r + 1)) (int (unsigned (s.CurSize n - NewSize n)))
      if s.CurSize n ≥ NewSize n then return s else takeRight N Nodes NewSize n r s

def leftTurn (N Nodes : ℕ) (NewSize : ℕ → ℕ) (n : ℕ) (s : Siblings T1 T2) :
    Option (Siblings T1 T2) :=
  if s.CurSize n = NewSize n then some s else takeRight N Nodes NewSize n (Nodes - (n + 1)) s

def moveElementsLeft (N Nodes : ℕ) (NewSize : ℕ → ℕ) :
    ℕ → Siblings T1 T2 → Option (Siblings T1 T2)
  | 0, s => some s
  | r + 1, s => do
      let s ← leftTurn N Nodes NewSize (Nodes - 1 - (r + 1)) s
      moveElementsLeft N Nodes NewSize r s

end Siblings

def adjustSiblingSizes (N Nodes : ℕ) (NewSize : ℕ → ℕ) (s : Siblings T1 T2) :
    Option (Siblings T1 T2) :=
  if Nodes = 0 then none
  else do
    let s ← s.moveElementsRight N NewSize (Nodes - 1)
    let s ← s.moveElementsLeft N Nodes NewSize (Nodes - 1)
    if ∀ n < Nodes, s.CurSize n = NewSize n then return s else none

/-- One round of the loop of `distribute` for the node `n`, with `NewSize`, `PosPair` and `Sum`. -/
def distributeLoop (Nodes PerNode Extra Position : ℕ) :
    ℕ → (ℕ → ℕ) × (ℕ × ℕ) × ℕ
  | 0 => (fun _ => 0, (Nodes, 0), 0)
  | n + 1 =>
    let (NewSize, PosPair, Sum) := distributeLoop Nodes PerNode Extra Position n
    let NewSize := Function.update NewSize n (unsigned (PerNode + if n < Extra then 1 else 0))
    let Sum := unsigned (Sum + NewSize n)
    let PosPair := if PosPair.1 = Nodes ∧ Sum > Position then
        (n, unsigned (Position - unsigned (Sum - NewSize n)))
      else PosPair
    (NewSize, PosPair, Sum)

def distribute (Nodes Elements Capacity Position : ℕ) (Grow : Bool) :
    Option ((ℕ × ℕ) × (ℕ → ℕ)) :=
  let Total := unsigned (Elements + Grow.toNat)
  if Total ≤ unsigned (Nodes * Capacity) ∧ Position ≤ Elements then
    if Nodes = 0 then some ((0, 0), fun _ => 0)
    else
      let (NewSize, PosPair, Sum) :=
        distributeLoop Nodes (Total / Nodes) (Total % Nodes) Position Nodes
      if Sum = Total ∧ (Grow → PosPair.1 < Nodes ∧ NewSize PosPair.1 ≠ 0) then
        let NewSize := if Grow then
            Function.update NewSize PosPair.1 (NewSize PosPair.1 - 1) else NewSize
        if (∀ n < Nodes, NewSize n ≤ Capacity) ∧
            unsigned (∑ n ∈ Finset.range Nodes, NewSize n : ℕ) = Elements then
          some (PosPair, NewSize)
        else none
      else none
  else none

theorem unsigned_of {x : ℤ} {n : ℕ} (h : x = n) (hn : n < 2 ^ 32) : unsigned x = n := by
  unfold unsigned
  omega

theorem unsigned_add {a b : ℕ} (h : a + b < 2 ^ 32) : unsigned (a + b) = a + b :=
  unsigned_of (Nat.cast_add a b).symm h

theorem unsigned_sub {a b : ℕ} (h : b ≤ a) (ha : a < 2 ^ 32) : unsigned (a - b) = a - b :=
  unsigned_of (Nat.cast_sub h).symm (by omega)

theorem unsigned_mul (a b : ℕ) : unsigned (a * b) = a * b % 2 ^ 32 := by
  unfold unsigned
  rw [← Nat.cast_mul]
  omega

theorem int_of {x : ℤ} (h : -2 ^ 31 ≤ x) (h' : x < 2 ^ 31) : int (unsigned x) = x := by
  unfold int unsigned Int.bmod
  dsimp only
  split <;> omega

/-! ## Copies -/

namespace NodeBase

variable {N i j c : ℕ} {this src t : NodeBase T1 T2}

def element (this : NodeBase T1 T2) (k : ℕ) : T1 × T2 := (this.first k, this.second k)

def Copied (src this : NodeBase T1 T2) (i j c : ℕ) (t : NodeBase T1 T2) : Prop :=
  ∀ k, t.element k = if j ≤ k ∧ k < j + c then src.element (i + (k - j)) else this.element k

theorem assign_spec (this src : NodeBase T1 T2) (hi : i < N) (hj : j < N) :
    ∃ t, this.assign N j src i = some t ∧
      ∀ k, t.element k = if k = j then src.element i else this.element k := by
  refine ⟨_, if_pos ⟨hi, hj⟩, fun k => ?_⟩
  rcases eq_or_ne k j with rfl | hk
  · simp [element]
  · simp [element, hk]

theorem copyLoop_spec (Other : Option (NodeBase T1 T2)) (hself : Other = none → j ≤ i)
    (hi : i + c ≤ N) (hj : j + c ≤ N) :
    ∃ t, copyLoop N Other c i j this = some t ∧ Copied (Other.getD this) this i j c t := by
  induction c generalizing i j this with
  | zero => exact ⟨this, rfl, fun k => by rw [if_neg (by omega)]⟩
  | succ c ih =>
    obtain ⟨u, hu, hassign⟩ := assign_spec this (Other.getD this) (i := i) (j := j) (N := N)
      (by omega) (by omega)
    obtain ⟨t, ht, hcopied⟩ := @ih (i + 1) (j + 1) u (fun h => by have := hself h; omega)
      (by omega) (by omega)
    refine ⟨t, ?_, fun k => ?_⟩
    · rw [copyLoop, hu]
      exact ht
    · rw [hcopied k, hassign k]
      cases Other with
      | some src => grind
      | none =>
        simp only [Option.getD_none] at hassign ⊢
        grind

theorem moveRightLoop_spec (hij : i ≤ j) (hj : j + c ≤ N) :
    ∃ t, moveRightLoop N i j c this = some t ∧ Copied this this i j c t := by
  induction c generalizing this with
  | zero => exact ⟨this, rfl, fun k => by rw [if_neg (by omega)]⟩
  | succ c ih =>
    obtain ⟨u, hu, hassign⟩ := assign_spec this this (i := i + c) (j := j + c) (N := N)
      (by omega) (by omega)
    obtain ⟨t, ht, hcopied⟩ := @ih u (by omega)
    refine ⟨t, ?_, fun k => ?_⟩
    · rw [moveRightLoop, hu]
      exact ht
    · rw [hcopied k, hassign k]
      grind

def elements (this : NodeBase T1 T2) (Size : ℕ) : List (T1 × T2) :=
  (List.range Size).map this.element

theorem elements_add (this : NodeBase T1 T2) (m n : ℕ) :
    this.elements (m + n) = this.elements m ++ (List.range n).map fun k => this.element (m + k) := by
  simp [elements, List.range_add, Function.comp_def]

theorem transferToRightSib_spec {Size SSize Count : ℕ} (Sib : NodeBase T1 T2) (hN : N < 2 ^ 31)
    (hSize : Size ≤ N) (hCount : Count ≤ Size) (hroom : SSize + Count ≤ N) :
    ∃ Sib', this.transferToRightSib N Size Sib SSize Count = some Sib' ∧
      this.elements (Size - Count) ++ Sib'.elements (SSize + Count) =
        this.elements Size ++ Sib.elements SSize := by
  obtain ⟨u, hu, hmoved⟩ := @moveRightLoop_spec _ _ N 0 Count SSize Sib (by omega) (by omega)
  obtain ⟨t, ht, hcopied⟩ := @copyLoop_spec _ _ N (Size - Count) 0 Count u (some this) (by simp)
    (by omega) (by omega)
  refine ⟨t, ?_, ?_⟩
  · unfold transferToRightSib moveRight copy
    rw [unsigned_add (by omega), unsigned_sub hCount (by omega), unsigned_add (by omega),
      unsigned_add (by omega), if_pos (by omega), hu]
    exact (if_pos (by omega)).trans ht
  · have hthis : this.elements Size = this.elements (Size - Count) ++
        (List.range Count).map fun k => this.element (Size - Count + k) := by
      rw [← elements_add, Nat.sub_add_cancel hCount]
    rw [hthis, Nat.add_comm SSize, elements_add t, List.append_assoc]
    congr 2
    · apply List.map_congr_left
      intro k hk
      rw [hcopied k, if_pos (by simpa using hk)]
      rfl
    · apply List.map_congr_left
      intro k hk
      have hk := List.mem_range.mp hk
      rw [hcopied, if_neg (by omega), hmoved, if_pos (by omega)]
      congr 1
      omega

theorem transferToLeftSib_spec {Size SSize Count : ℕ} (Sib : NodeBase T1 T2) (hN : N < 2 ^ 31)
    (hSize : Size ≤ N) (hCount : Count ≤ Size) (hroom : SSize + Count ≤ N) :
    ∃ this' Sib', this.transferToLeftSib N Size Sib SSize Count = some (this', Sib') ∧
      Sib'.elements (SSize + Count) ++ this'.elements (Size - Count) =
        Sib.elements SSize ++ this.elements Size := by
  obtain ⟨u, hu, hcopied⟩ := @copyLoop_spec _ _ N 0 SSize Count Sib (some this) (by simp)
    (by omega) (by omega)
  obtain ⟨t, ht, hmoved⟩ := @copyLoop_spec _ _ N Count 0 (Size - Count) this none (by simp)
    (by omega) (by omega)
  refine ⟨t, u, ?_, ?_⟩
  · unfold transferToLeftSib erase moveLeft copy
    rw [unsigned_add (by omega), unsigned_add (by omega), unsigned_sub hCount (by omega),
      if_pos (by omega), hu, if_pos (Nat.zero_le _), unsigned_add (by omega),
      unsigned_add (by omega), if_pos (by omega), ht]
    rfl
  · have hthis : this.elements Size = this.elements Count ++
        (List.range (Size - Count)).map fun k => this.element (Count + k) := by
      rw [← elements_add, Nat.add_sub_cancel' hCount]
    rw [hthis, elements_add, List.append_assoc]
    congr 1
    · apply List.map_congr_left
      intro k hk
      have hk := List.mem_range.mp hk
      rw [hcopied, if_neg (by omega)]
    · congr 1
      · apply List.map_congr_left
        intro k hk
        have hk := List.mem_range.mp hk
        rw [hcopied, if_pos (by omega)]
        exact congrArg this.element (by omega)
      · apply List.map_congr_left
        intro k hk
        rw [hmoved, if_pos (by simpa using hk)]
        rfl

/-- The number that is added to a node, limited by what its sibling has and by the free space. -/
def moved (N Size SSize : ℕ) (Add : ℤ) : ℤ :=
  if Add > 0 then min (min Add SSize) (N - Size) else -min (min (-Add) Size) (N - SSize)

theorem adjustFromLeftSib_spec {Size SSize : ℕ} {Add : ℤ} (Sib : NodeBase T1 T2)
    (hN : N < 2 ^ 31) (hSize : Size ≤ N) (hSSize : SSize ≤ N) (hlow : -2 ^ 31 < Add)
    (hhigh : Add < 2 ^ 31) :
    ∃ this' Sib', this.adjustFromLeftSib N Size Sib SSize Add =
        some (moved N Size SSize Add, this', Sib') ∧
      Sib'.elements (SSize - moved N Size SSize Add).toNat ++
          this'.elements (Size + moved N Size SSize Add).toNat =
        Sib.elements SSize ++ this.elements Size := by
  unfold adjustFromLeftSib moved
  by_cases hAdd : Add > 0
  · rw [if_pos hAdd, if_pos hAdd, unsigned_of (n := Add.toNat) (by omega) (by omega),
      unsigned_sub hSize (by omega)]
    dsimp only
    obtain ⟨c, hc⟩ : ∃ c, c = min (min Add.toNat SSize) (N - Size) := ⟨_, rfl⟩
    have hmin : min (min Add SSize) (N - Size) = (c : ℤ) := by omega
    have hint := int_of (x := c) (by omega) (by omega)
    rw [unsigned_of rfl (by omega)] at hint
    obtain ⟨this', hrun, hsame⟩ := @transferToRightSib_spec _ _ N Sib SSize Size c this hN hSSize
      (by omega) (by omega)
    refine ⟨this', Sib, by rw [← hc, hrun, hmin, hint]; rfl, ?_⟩
    rw [hmin, ← hsame, ← Nat.cast_add, Int.toNat_natCast, Int.toNat_sub]
  · rw [if_neg hAdd, if_neg hAdd, unsigned_of (n := (-Add).toNat) (by omega) (by omega),
      unsigned_sub hSSize (by omega)]
    dsimp only
    obtain ⟨c, hc⟩ : ∃ c, c = min (min (-Add).toNat Size) (N - SSize) := ⟨_, rfl⟩
    have hmin : min (min (-Add) Size) (N - SSize) = (c : ℤ) := by omega
    obtain ⟨this', Sib', hrun, hsame⟩ := @transferToLeftSib_spec _ _ N this Size SSize c Sib hN
      hSize (by omega) (by omega)
    refine ⟨this', Sib', ?_, ?_⟩
    · rw [← hc, hrun, hmin, int_of (by omega) (by omega)]
      rfl
    · rw [hmin, ← hsame, sub_neg_eq_add, ← Nat.cast_add, Int.toNat_natCast, ← sub_eq_add_neg,
        Int.toNat_sub]

end NodeBase

namespace Siblings

variable {N a b : ℕ} {s s' : Siblings T1 T2}

def elements (s : Siblings T1 T2) : ℕ → List (T1 × T2)
  | 0 => []
  | K + 1 => s.elements K ++ (s.Node K).elements (s.CurSize K)

@[simp] theorem length_elements (s : Siblings T1 T2) (K : ℕ) :
    (s.elements K).length = ∑ k ∈ Finset.range K, s.CurSize k := by
  induction K with
  | zero => rfl
  | succ K ih => simp [elements, Finset.sum_range_succ, ih, NodeBase.elements]

/-- From `s` to `s'` elements moved between the nodes from `a` to `b`. -/
structure Moved (a b : ℕ) (s s' : Siblings T1 T2) : Prop where
  elements : ∀ K, K ≤ a ∨ b < K → s'.elements K = s.elements K
  sizes : ∀ k, k < a ∨ b < k → s'.CurSize k = s.CurSize k

theorem Moved.trans {a' b' : ℕ} {s'' : Siblings T1 T2} (h : Moved a b s s')
    (h' : Moved a' b' s' s'') (ha : a' ≤ a) (hb : b ≤ b') : Moved a' b' s s'' where
  elements K hK := (h'.elements K hK).trans (h.elements K (by omega))
  sizes k hk := (h'.sizes k hk).trans (h.sizes k (by omega))

theorem Moved.sum (h : Moved a b s s') {K : ℕ} (hK : K ≤ a ∨ b < K) :
    ∑ k ∈ Finset.range K, s'.CurSize k = ∑ k ∈ Finset.range K, s.CurSize k := by
  rw [← length_elements, ← length_elements, h.elements K hK]

theorem moved_of_eq (hab : a < b) (hother : ∀ k, k ≠ a → k ≠ b →
      s'.Node k = s.Node k ∧ s'.CurSize k = s.CurSize k)
    (hbetween : ∀ k, a < k → k < b → s.CurSize k = 0)
    (hsame : (s'.Node a).elements (s'.CurSize a) ++ (s'.Node b).elements (s'.CurSize b) =
      (s.Node a).elements (s.CurSize a) ++ (s.Node b).elements (s.CurSize b)) :
    Moved a b s s' := by
  have hbefore : ∀ K ≤ a, s'.elements K = s.elements K := by
    intro K hK
    induction K with
    | zero => rfl
    | succ K ih =>
      obtain ⟨hNode, hsize⟩ := hother K (by omega) (by omega)
      rw [elements, elements, ih (by omega), hNode, hsize]
  have hinside : ∀ K, a < K → K ≤ b →
      s'.elements K = s.elements a ++ (s'.Node a).elements (s'.CurSize a) ∧
        s.elements K = s.elements a ++ (s.Node a).elements (s.CurSize a) := by
    intro K haK
    induction K, haK using Nat.le_induction with
    | base => exact fun _ => ⟨by rw [elements, hbefore a le_rfl], rfl⟩
    | succ K haK ih =>
      intro hK
      obtain ⟨hNode, hsize⟩ := hother K (by omega) (by omega)
      obtain ⟨ih', ih⟩ := ih (by omega)
      rw [elements, elements, hNode, hsize, hbetween K (by omega) (by omega), ih', ih]
      exact ⟨List.append_nil _, List.append_nil _⟩
  refine ⟨fun K hK => ?_, fun k hk => (hother k (by omega) (by omega)).2⟩
  rcases hK with hK | hK
  · exact hbefore K hK
  · induction K, hK using Nat.le_induction with
    | base =>
      obtain ⟨h', h⟩ := hinside b hab le_rfl
      rw [elements, elements, h', h, List.append_assoc, List.append_assoc, hsame]
    | succ K hK ih =>
      obtain ⟨hNode, hsize⟩ := hother K (by omega) (by omega)
      rw [elements, elements, ih, hNode, hsize]

theorem adjust_spec (Add : ℤ) (hN : N < 2 ^ 31) (hab : a < b) (ha : s.CurSize a ≤ N)
    (hb : s.CurSize b ≤ N) (hbetween : ∀ k, a < k → k < b → s.CurSize k = 0)
    (hlow : -2 ^ 31 < Add) (hhigh : Add < 2 ^ 31) :
    ∃ s', s.adjust N a b Add = some s' ∧ Moved a b s s' ∧
      (∀ k, k ≠ a → k ≠ b → s'.CurSize k = s.CurSize k) ∧
      (s'.CurSize a : ℤ) = s.CurSize a - NodeBase.moved N (s.CurSize b) (s.CurSize a) Add ∧
      (s'.CurSize b : ℤ) = s.CurSize b + NodeBase.moved N (s.CurSize b) (s.CurSize a) Add := by
  obtain ⟨this', Sib', hrun, hsame⟩ := @NodeBase.adjustFromLeftSib_spec _ _ N (s.Node b)
    (s.CurSize b) (s.CurSize a) Add (s.Node a) hN hb ha hlow hhigh
  obtain ⟨d, hd⟩ : ∃ d, d = NodeBase.moved N (s.CurSize b) (s.CurSize a) Add := ⟨_, rfl⟩
  have hlower : 0 ≤ s.CurSize a - d ∧ 0 ≤ s.CurSize b + d ∧ s.CurSize a - d ≤ N ∧
      s.CurSize b + d ≤ N := by
    unfold NodeBase.moved at hd
    split at hd <;> omega
  rw [← hd] at hrun hsame ⊢
  unfold adjust
  rw [hrun, Option.bind_eq_bind, Option.bind_some]
  dsimp only
  rw [unsigned_of (n := (s.CurSize a - d).toNat) (by omega) (by omega),
    unsigned_of (n := (s.CurSize b + d).toNat) (by omega) (by omega)]
  refine ⟨_, rfl, moved_of_eq hab ?_ hbetween ?_, ?_, ?_, ?_⟩
  · intro k hka hkb
    simp [hka, hkb]
  · simpa [hab.ne] using hsame
  · intro k hka hkb
    simp [hka, hkb]
  · simp [hab.ne, Int.toNat_of_nonneg hlower.1]
  · simp [Int.toNat_of_nonneg hlower.2.1]

variable {Nodes n m : ℕ} {NewSize : ℕ → ℕ}

theorem Moved.empty (h : Moved a b s s') {k : ℕ} (hk : b < k) (hempty : ∀ i < k, s.CurSize i = 0) :
    ∀ i < k, s'.CurSize i = 0 := by
  have hsum : ∑ i ∈ Finset.range k, s'.CurSize i = 0 := by
    rw [h.sum (Or.inr hk)]
    exact Finset.sum_eq_zero fun i hi => hempty i (Finset.mem_range.mp hi)
  exact fun i hi => Finset.sum_eq_zero_iff.mp hsum i (Finset.mem_range.mpr hi)

theorem takeLeft_spec (hN : N < 2 ^ 31) (hnew : NewSize n ≤ N) (hfits : ∀ k ≤ n, s.CurSize k ≤ N)
    (hm : m ≤ n) (hempty : ∀ k, m ≤ k → k < n → s.CurSize k = 0) (hlacks : s.CurSize n < NewSize n) :
    ∃ s', takeLeft N NewSize n m s = some s' ∧ Moved 0 n s s' ∧ (∀ k ≤ n, s'.CurSize k ≤ N) ∧
      (NewSize n ≤ s'.CurSize n ∨ ∀ i < n, s'.CurSize i = 0) := by
  induction m generalizing s with
  | zero =>
    exact ⟨s, rfl, ⟨fun _ _ => rfl, fun _ _ => rfl⟩, hfits,
      Or.inr fun i hi => hempty i (Nat.zero_le i) hi⟩
  | succ m ih =>
    have hcur := hfits n le_rfl
    obtain ⟨s₁, hrun, hmoved, hother, hleft, hright⟩ :=
      adjust_spec (s := s) (NewSize n - s.CurSize n) hN hm (hfits m (by omega)) hcur
        (fun k hk hkn => hempty k hk hkn) (by omega) (by omega)
    rw [NodeBase.moved, if_pos (by omega)] at hleft hright
    have hm' : s.CurSize m ≤ N := hfits m (by omega)
    have hfits₁ : ∀ k ≤ n, s₁.CurSize k ≤ N := by
      intro k hk
      by_cases hkm : k = m
      · subst hkm; omega
      · by_cases hkn : k = n
        · subst hkn; omega
        · rw [hother k hkm hkn]
          exact hfits k hk
    have hmoved₁ : Moved 0 n s s₁ :=
      ⟨fun K hK => hmoved.elements K (by omega), fun k hk => hmoved.sizes k (by omega)⟩
    unfold takeLeft
    rw [int_of (by omega) (by omega), hrun, Option.bind_eq_bind, Option.bind_some]
    by_cases hdone : s₁.CurSize n ≥ NewSize n
    · rw [if_pos hdone]
      exact ⟨s₁, rfl, hmoved₁, hfits₁, Or.inl hdone⟩
    · rw [if_neg hdone]
      have hempty₁ : ∀ k, m ≤ k → k < n → s₁.CurSize k = 0 := by
        intro k hk hkn
        by_cases hkm : k = m
        · subst hkm; omega
        · rw [hother k hkm (by omega)]
          exact hempty k (by omega) hkn
      obtain ⟨s', hrest, hmoved', hfits', hend⟩ := ih hfits₁ (by omega) hempty₁ (by omega)
      exact ⟨s', hrest, hmoved₁.trans hmoved' le_rfl le_rfl, hfits', hend⟩

theorem rightTurn_spec (hN : N < 2 ^ 31) (hnew : NewSize (n + 1) ≤ N)
    (hfits : ∀ k ≤ n + 1, s.CurSize k ≤ N) :
    ∃ s', rightTurn N NewSize (n + 1) s = some s' ∧ Moved 0 (n + 1) s s' ∧
      (∀ k ≤ n + 1, s'.CurSize k ≤ N) ∧
      (NewSize (n + 1) ≤ s'.CurSize (n + 1) ∨ ∀ i < n + 1, s'.CurSize i = 0) := by
  unfold rightTurn
  by_cases heq : s.CurSize (n + 1) = NewSize (n + 1)
  · rw [if_pos heq]
    exact ⟨s, rfl, ⟨fun _ _ => rfl, fun _ _ => rfl⟩, hfits, Or.inl heq.ge⟩
  rw [if_neg heq]
  rcases lt_or_gt_of_ne heq with hlt | hgt
  · exact takeLeft_spec hN hnew hfits le_rfl (fun k hk hkn => by omega) hlt
  · -- the surplus goes to the next node on the left, as far as there is room
    have hcur := hfits (n + 1) le_rfl
    have hn' := hfits n (by omega)
    obtain ⟨s₁, hrun, hmoved, hother, hleft, hright⟩ :=
      adjust_spec (s := s) (NewSize (n + 1) - s.CurSize (n + 1)) hN (Nat.lt_add_one n) hn'
        hcur (fun k hk hkn => by omega) (by omega) (by omega)
    rw [NodeBase.moved, if_neg (by omega)] at hleft hright
    unfold takeLeft
    rw [int_of (by omega) (by omega), hrun, Option.bind_eq_bind, Option.bind_some,
      if_pos (by omega)]
    refine ⟨s₁, rfl, ⟨fun K hK => hmoved.elements K (by omega),
      fun k hk => hmoved.sizes k (by omega)⟩, fun k hk => ?_, Or.inl (by omega)⟩
    by_cases hkm : k = n
    · subst hkm; omega
    · by_cases hkn : k = n + 1
      · subst hkn; omega
      · rw [hother k hkm hkn]
        exact hfits k hk

def Enough (NewSize : ℕ → ℕ) (Nodes n : ℕ) (s : Siblings T1 T2) : Prop :=
  ∀ k, n < k → k < Nodes → NewSize k ≤ s.CurSize k ∨ ∀ i < k, s.CurSize i = 0

theorem moveElementsRight_spec (hN : N < 2 ^ 31) (hnew : ∀ k < Nodes, NewSize k ≤ N)
    (hfits : ∀ k < Nodes, s.CurSize k ≤ N) (hn : n < Nodes) (hs : Enough NewSize Nodes n s) :
    ∃ s', moveElementsRight N NewSize n s = some s' ∧ Moved 0 (Nodes - 1) s s' ∧
      (∀ k < Nodes, s'.CurSize k ≤ N) ∧ Enough NewSize Nodes 0 s' := by
  induction n generalizing s with
  | zero => exact ⟨s, rfl, ⟨fun _ _ => rfl, fun _ _ => rfl⟩, hfits, hs⟩
  | succ n ih =>
    obtain ⟨s₁, hrun, hmoved, hfits₁, hend⟩ :=
      rightTurn_spec hN (hnew (n + 1) hn) (s := s) fun k hk => hfits k (by omega)
    unfold moveElementsRight
    rw [hrun, Option.bind_eq_bind, Option.bind_some]
    have hfits₂ : ∀ k < Nodes, s₁.CurSize k ≤ N := by
      intro k hk
      by_cases hkn : k ≤ n + 1
      · exact hfits₁ k hkn
      · rw [hmoved.sizes k (by omega)]
        exact hfits k hk
    have hs₁ : Enough NewSize Nodes n s₁ := by
      intro k hnk hk
      by_cases hkn : k = n + 1
      · subst hkn
        exact hend
      · rw [hmoved.sizes k (by omega)]
        exact (hs k (by omega) hk).imp_right (hmoved.empty (by omega))
    obtain ⟨s', hrest, hmoved', hfits', henough⟩ := ih hfits₂ (by omega) hs₁
    exact ⟨s', hrest, hmoved.trans hmoved' le_rfl (by omega), hfits', henough⟩

/-! ## Moving left -/

def EnoughFrom (NewSize : ℕ → ℕ) (Nodes n : ℕ) (s : Siblings T1 T2) : Prop :=
  ∀ k, n ≤ k → k < Nodes → NewSize k ≤ s.CurSize k ∨ ∀ i, n ≤ i → i < k → s.CurSize i = 0

theorem takeRight_spec {r : ℕ} (hN : N < 2 ^ 31) (hnew : NewSize n ≤ N)
    (hfits : ∀ k < Nodes, s.CurSize k ≤ N) (hr : n + 1 + r ≤ Nodes)
    (hempty : ∀ k, n < k → k + r < Nodes → s.CurSize k = 0) (hlacks : s.CurSize n < NewSize n)
    (hs : EnoughFrom NewSize Nodes (n + 1) s) :
    ∃ s', takeRight N Nodes NewSize n r s = some s' ∧ Moved n (Nodes - 1) s s' ∧
      (∀ k < Nodes, s'.CurSize k ≤ N) ∧ s'.CurSize n ≤ NewSize n ∧
      (s'.CurSize n = NewSize n ∨ ∀ k, n < k → k < Nodes → s'.CurSize k = 0) ∧
      EnoughFrom NewSize Nodes (n + 1) s' := by
  induction r generalizing s with
  | zero =>
    exact ⟨s, rfl, ⟨fun _ _ => rfl, fun _ _ => rfl⟩, hfits, hlacks.le, Or.inr hempty, hs⟩
  | succ r ih =>
    obtain ⟨m, hm⟩ : ∃ m, m = Nodes - (r + 1) := ⟨_, rfl⟩
    have hcur := hfits n (by omega)
    have hcurm := hfits m (by omega)
    obtain ⟨s₁, hrun, hmoved, hother, hleft, hright⟩ :=
      adjust_spec (s := s) (s.CurSize n - NewSize n) hN (by omega : n < m) hcur hcurm
        (fun k hk hkm => hempty k hk (by omega)) (by omega) (by omega)
    rw [NodeBase.moved, if_neg (by omega)] at hleft hright
    have hother₁ : ∀ k, n < k → k ≠ m → s₁.CurSize k = s.CurSize k :=
      fun k hk hkm => hother k (by omega) hkm
    have hfits₁ : ∀ k < Nodes, s₁.CurSize k ≤ N := by
      intro k hk
      by_cases hkn : k = n
      · subst hkn; omega
      · by_cases hkm : k = m
        · subst hkm; omega
        · rw [hother k hkn hkm]
          exact hfits k hk
    have hmoved₁ : Moved n (Nodes - 1) s s₁ :=
      ⟨fun K hK => hmoved.elements K (by omega), fun k hk => hmoved.sizes k (by omega)⟩
    have hbetween : ∀ i, n < i → i < m → s₁.CurSize i = 0 := fun i hi him => by
      rw [hother₁ i hi (by omega)]
      exact hempty i hi (by omega)
    have hs₁ : EnoughFrom NewSize Nodes (n + 1) s₁ := by
      intro k hnk hk
      rcases Nat.lt_or_ge m k with hmk | hkm
      · rw [hother₁ k (by omega) (by omega)]
        refine (hs k hnk hk).imp_right fun hzero i hi hik => ?_
        by_cases him : i = m
        · have := hzero m (by omega) hmk
          subst him; omega
        · rw [hother₁ i (by omega) him]
          exact hzero i hi hik
      · exact Or.inr fun i hi hik => hbetween i hi (by omega)
    unfold takeRight
    rw [int_of (by omega) (by omega), ← hm, hrun, Option.bind_eq_bind, Option.bind_some]
    by_cases hdone : s₁.CurSize n ≥ NewSize n
    · rw [if_pos hdone]
      exact ⟨s₁, rfl, hmoved₁, hfits₁, by omega, Or.inl (by omega), hs₁⟩
    · rw [if_neg hdone]
      have hempty₁ : ∀ k, n < k → k + r < Nodes → s₁.CurSize k = 0 := by
        intro k hk hkr
        by_cases hkm : k = m
        · subst hkm; omega
        · exact hbetween k hk (by omega)
      obtain ⟨s', hrest, hmoved', hend⟩ := ih hfits₁ (by omega) hempty₁ (by omega) hs₁
      exact ⟨s', hrest, hmoved₁.trans hmoved' le_rfl le_rfl, hend⟩

theorem leftTurn_spec (hN : N < 2 ^ 31) (hnew : ∀ k < Nodes, NewSize k ≤ N)
    (hfits : ∀ k < Nodes, s.CurSize k ≤ N) (hn : n < Nodes)
    (hsum : ∑ k ∈ Finset.range Nodes, s.CurSize k = ∑ k ∈ Finset.range Nodes, NewSize k)
    (hdone : ∀ k < n, s.CurSize k = NewSize k) (hs : EnoughFrom NewSize Nodes n s) :
    ∃ s', leftTurn N Nodes NewSize n s = some s' ∧ Moved n (Nodes - 1) s s' ∧
      (∀ k < Nodes, s'.CurSize k ≤ N) ∧ s'.CurSize n = NewSize n ∧
      EnoughFrom NewSize Nodes (n + 1) s' := by
  have hlater : EnoughFrom NewSize Nodes (n + 1) s := fun k hk hkN =>
    (hs k (by omega) hkN).imp_right fun h i hi hik => h i (by omega) hik
  have hle : s.CurSize n ≤ NewSize n := by
    by_contra hlt
    have hless : ∑ k ∈ Finset.range Nodes, NewSize k < ∑ k ∈ Finset.range Nodes, s.CurSize k := by
      refine Finset.sum_lt_sum (fun k hk => ?_) ⟨n, Finset.mem_range.mpr hn, by omega⟩
      rcases Nat.lt_trichotomy k n with hkn | rfl | hkn
      · exact (hdone k hkn).ge
      · omega
      · rcases hs k hkn.le (Finset.mem_range.mp hk) with h | h
        · exact h
        · have := h n le_rfl hkn
          omega
    omega
  unfold leftTurn
  rcases hle.eq_or_lt with heq | hlt
  · rw [if_pos heq]
    exact ⟨s, rfl, ⟨fun _ _ => rfl, fun _ _ => rfl⟩, hfits, heq, hlater⟩
  · rw [if_neg hlt.ne]
    obtain ⟨s', hrun, hmoved, hfits', hle', hend, hs'⟩ := takeRight_spec (r := Nodes - (n + 1)) hN
      (hnew n hn) hfits (by omega) (fun k hk hkN => by omega) hlt hlater
    refine ⟨s', hrun, hmoved, hfits', ?_, hs'⟩
    rcases hend with heq | hzero
    · exact heq
    · -- nothing is left on the right, so that the sums leave no gap
      have hall : ∀ k ∈ Finset.range Nodes, s'.CurSize k ≤ NewSize k := by
        intro k hk
        rcases Nat.lt_trichotomy k n with hkn | rfl | hkn
        · rw [hmoved.sizes k (Or.inl hkn), hdone k hkn]
        · exact hle'
        · rw [hzero k hkn (Finset.mem_range.mp hk)]
          exact Nat.zero_le _
      rw [← hmoved.sum (Or.inr (by omega))] at hsum
      exact (Finset.sum_eq_sum_iff_of_le hall).mp hsum n (Finset.mem_range.mpr hn)

theorem moveElementsLeft_spec {r : ℕ} (hN : N < 2 ^ 31) (hnew : ∀ k < Nodes, NewSize k ≤ N)
    (hfits : ∀ k < Nodes, s.CurSize k ≤ N) (hr : r + 1 ≤ Nodes)
    (hsum : ∑ k ∈ Finset.range Nodes, s.CurSize k = ∑ k ∈ Finset.range Nodes, NewSize k)
    (hdone : ∀ k, k + r + 1 < Nodes → s.CurSize k = NewSize k)
    (hs : EnoughFrom NewSize Nodes (Nodes - 1 - r) s) :
    ∃ s', moveElementsLeft N Nodes NewSize r s = some s' ∧ Moved 0 (Nodes - 1) s s' ∧
      ∀ k, k + 1 < Nodes → s'.CurSize k = NewSize k := by
  induction r generalizing s with
  | zero => exact ⟨s, rfl, ⟨fun _ _ => rfl, fun _ _ => rfl⟩, hdone⟩
  | succ r ih =>
    obtain ⟨s₁, hrun, hmoved, hfits₁, heq, hs₁⟩ := leftTurn_spec hN hnew hfits (by omega) hsum
      (fun k hk => hdone k (by omega)) hs
    rw [show Nodes - 1 - (r + 1) + 1 = Nodes - 1 - r by omega] at hs₁
    have hdone₁ : ∀ k, k + r + 1 < Nodes → s₁.CurSize k = NewSize k := by
      intro k hk
      by_cases hkn : k = Nodes - 1 - (r + 1)
      · rw [hkn, heq]
      · rw [hmoved.sizes k (by omega)]
        exact hdone k (by omega)
    obtain ⟨s', hrest, hmoved', hall⟩ := ih hfits₁ (by omega)
      ((hmoved.sum (by omega)).trans hsum) hdone₁ hs₁
    refine ⟨s', ?_, ⟨fun K hK => ?_, fun k hk => ?_⟩, hall⟩
    · rw [moveElementsLeft, hrun]
      exact hrest
    · rw [hmoved'.elements K hK, hmoved.elements K (by omega)]
    · rw [hmoved'.sizes k hk, hmoved.sizes k (by omega)]

end Siblings

open Siblings in
theorem adjustSiblingSizes_spec {N Nodes : ℕ} {NewSize : ℕ → ℕ} {s : Siblings T1 T2}
    (hN : N < 2 ^ 31) (hNodes : 0 < Nodes) (hfits : ∀ n < Nodes, s.CurSize n ≤ N)
    (hnew : ∀ n < Nodes, NewSize n ≤ N)
    (hsum : ∑ n ∈ Finset.range Nodes, s.CurSize n = ∑ n ∈ Finset.range Nodes, NewSize n) :
    ∃ s', adjustSiblingSizes N Nodes NewSize s = some s' ∧
      (∀ n < Nodes, s'.CurSize n = NewSize n) ∧ s'.elements Nodes = s.elements Nodes := by
  obtain ⟨s₁, hright, hmoved₁, hfits₁, henough⟩ := moveElementsRight_spec (n := Nodes - 1) hN hnew
    hfits (by omega) fun k hk hkN => by omega
  have hs₁ : EnoughFrom NewSize Nodes (Nodes - 1 - (Nodes - 1)) s₁ := by
    intro k _ hk
    rcases Nat.eq_zero_or_pos k with rfl | hpos
    · exact Or.inr fun i _ hi => by omega
    · exact (henough k hpos hk).imp_right fun h i _ hik => h i hik
  have hsum₁ := (hmoved₁.sum (Or.inr (by omega))).trans hsum
  obtain ⟨s₂, hleft, hmoved₂, hall⟩ := moveElementsLeft_spec hN hnew hfits₁ (by omega) hsum₁
    (fun k hk => by omega) hs₁
  have hlast : ∀ n < Nodes, s₂.CurSize n = NewSize n := by
    obtain ⟨M, rfl⟩ : ∃ M, Nodes = M + 1 := ⟨Nodes - 1, by omega⟩
    have hsum₂ := (hmoved₂.sum (Or.inr (by omega))).trans hsum₁
    have hprefix : ∑ n ∈ Finset.range M, s₂.CurSize n = ∑ n ∈ Finset.range M, NewSize n :=
      Finset.sum_congr rfl fun n hn => hall n (by have := Finset.mem_range.mp hn; omega)
    rw [Finset.sum_range_succ, Finset.sum_range_succ, hprefix] at hsum₂
    intro n hn
    rcases Nat.lt_or_ge n M with hnM | hMn
    · exact hall n (by omega)
    · obtain rfl : n = M := by omega
      omega
  refine ⟨s₂, ?_, hlast, ?_⟩
  · rw [adjustSiblingSizes, if_neg hNodes.ne', hright, Option.bind_eq_bind, Option.bind_some, hleft]
    exact if_pos hlast
  · rw [hmoved₂.elements Nodes (Or.inr (by omega)), hmoved₁.elements Nodes (Or.inr (by omega))]

/-! ## Distribution -/

section Distribute

variable {Nodes PerNode Extra Position n : ℕ}

def shares (PerNode Extra n : ℕ) : ℕ := n * PerNode + min n Extra

theorem shares_succ (PerNode Extra n : ℕ) :
    shares PerNode Extra (n + 1) = shares PerNode Extra n + (PerNode + if n < Extra then 1 else 0) := by
  unfold shares
  rw [Nat.succ_mul]
  split <;> omega

theorem shares_mono {m : ℕ} (h : m ≤ n) : shares PerNode Extra m ≤ shares PerNode Extra n := by
  have := Nat.mul_le_mul_right PerNode h
  unfold shares
  omega

theorem sum_shares {f : ℕ → ℕ} (h : ∀ k < n, f k = PerNode + if k < Extra then 1 else 0) :
    ∑ k ∈ Finset.range n, f k = shares PerNode Extra n := by
  induction n with
  | zero => simp [shares]
  | succ n ih =>
    rw [Finset.sum_range_succ, ih fun k hk => h k (by omega), h n (by omega), shares_succ]

theorem distributeLoop_spec (hsmall : shares PerNode Extra Nodes < 2 ^ 32)
    (hPosition : Position < 2 ^ 32) (hn : n ≤ Nodes) :
    ∃ NewSize PosPair, distributeLoop Nodes PerNode Extra Position n =
        (NewSize, PosPair, shares PerNode Extra n) ∧
      (∀ k < n, NewSize k = PerNode + if k < Extra then 1 else 0) ∧
      (PosPair = (Nodes, 0) ∧ shares PerNode Extra n ≤ Position ∨
        PosPair.1 < n ∧ shares PerNode Extra PosPair.1 + PosPair.2 = Position ∧
          Position < shares PerNode Extra (PosPair.1 + 1)) := by
  induction n with
  | zero =>
    exact ⟨fun _ => 0, (Nodes, 0), by simp [distributeLoop, shares], by simp,
      Or.inl ⟨rfl, by simp [shares]⟩⟩
  | succ n ih =>
    obtain ⟨NewSize, PosPair, hloop, hsizes, hplace⟩ := ih (by omega)
    have hle : shares PerNode Extra (n + 1) ≤ shares PerNode Extra Nodes := shares_mono hn
    have hsucc := shares_succ PerNode Extra n
    have hsize : unsigned (PerNode + if n < Extra then 1 else 0) =
        PerNode + if n < Extra then 1 else 0 :=
      unsigned_of (by split <;> simp) (by omega)
    have hsum : unsigned ((shares PerNode Extra n : ℤ) +
        (PerNode + if n < Extra then 1 else 0 : ℕ)) = shares PerNode Extra (n + 1) := by
      rw [unsigned_add (by omega), hsucc]
    have hbefore : unsigned ((shares PerNode Extra (n + 1) : ℤ) -
        (PerNode + if n < Extra then 1 else 0 : ℕ)) = shares PerNode Extra n := by
      rw [unsigned_sub (by omega) (by omega)]
      omega
    have hrun : distributeLoop Nodes PerNode Extra Position (n + 1) =
        (Function.update NewSize n (PerNode + if n < Extra then 1 else 0),
          if PosPair.1 = Nodes ∧ shares PerNode Extra (n + 1) > Position then
            (n, unsigned (Position - shares PerNode Extra n)) else PosPair,
          shares PerNode Extra (n + 1)) := by
      rw [distributeLoop, hloop]
      simp only [hsize, Function.update_self, hsum, hbefore]
    refine ⟨_, _, hrun, fun k hk => ?_, ?_⟩
    · rcases eq_or_ne k n with rfl | hkn
      · rw [Function.update_self]
      · rw [Function.update_of_ne hkn]
        exact hsizes k (by omega)
    · rcases hplace with ⟨rfl, hsum⟩ | ⟨hlt, hplace⟩
      · by_cases hfound : shares PerNode Extra (n + 1) > Position
        · rw [if_pos ⟨rfl, hfound⟩, unsigned_sub hsum hPosition]
          exact Or.inr ⟨Nat.lt_succ_self n, Nat.add_sub_cancel' hsum, hfound⟩
        · rw [if_neg fun h => hfound h.2]
          exact Or.inl ⟨rfl, not_lt.mp hfound⟩
      · rw [if_neg (by omega)]
        exact Or.inr ⟨by omega, hplace⟩

/-- The sizes, and the place where the position falls. -/
structure Distributed (Nodes Elements Capacity Position : ℕ) (Grow : Bool) (PosPair : ℕ × ℕ)
    (NewSize : ℕ → ℕ) : Prop where
  sum : ∑ n ∈ Finset.range Nodes, NewSize n = Elements
  within : ∀ n < Nodes, NewSize n ≤ Capacity
  position : ∑ n ∈ Finset.range PosPair.1, NewSize n + PosPair.2 = Position
  place : PosPair.1 < Nodes ∧ PosPair.2 < NewSize PosPair.1 + Grow.toNat ∨
    PosPair = (Nodes, 0) ∧ Grow = false
  room : Grow = true → PosPair.1 < Nodes ∧ NewSize PosPair.1 + 1 ≤ Capacity

theorem share_le {Total Capacity : ℕ} (h : Total ≤ Nodes * Capacity) (n : ℕ) :
    (Total / Nodes + if n < Total % Nodes then 1 else 0) ≤ Capacity := by
  have hdiv := Nat.div_add_mod Total Nodes
  split
  · have hlt : Nodes * (Total / Nodes) < Nodes * Capacity := by omega
    exact lt_of_mul_lt_mul_left hlt (Nat.zero_le Nodes)
  · exact Nat.div_le_of_le_mul h

theorem distribute_spec {Elements Capacity : ℕ} {Grow : Bool}
    (hroom : Elements + Grow.toNat ≤ Nodes * Capacity % 2 ^ 32) (hPosition : Position ≤ Elements) :
    ∃ PosPair NewSize, distribute Nodes Elements Capacity Position Grow = some (PosPair, NewSize) ∧
      Distributed Nodes Elements Capacity Position Grow PosPair NewSize := by
  have hsmall : Elements + Grow.toNat < 2 ^ 32 :=
    hroom.trans_lt (Nat.mod_lt _ (Nat.two_pow_pos 32))
  unfold distribute
  rw [unsigned_add hsmall, unsigned_mul, if_pos ⟨hroom, hPosition⟩]
  rcases Nat.eq_zero_or_pos Nodes with rfl | hpos
  · rw [Nat.zero_mul, Nat.zero_mod] at hroom
    have hGrow : Grow = false := by cases Grow <;> simp_all
    rw [if_pos rfl]
    exact ⟨(0, 0), fun _ => 0, rfl, by simp; omega, by simp, by simp; omega, Or.inr ⟨rfl, hGrow⟩,
      by simp [hGrow]⟩
  rw [if_neg hpos.ne']
  obtain ⟨Total, hTotal⟩ : ∃ Total, Total = Elements + Grow.toNat := ⟨_, rfl⟩
  rw [← hTotal] at hroom hsmall ⊢
  have hall : shares (Total / Nodes) (Total % Nodes) Nodes = Total := by
    have hmod := Nat.mod_lt Total hpos
    rw [shares, Nat.min_eq_right hmod.le, Nat.div_add_mod]
  obtain ⟨NewSize, PosPair, hloop, hsizes, hplace⟩ := @distributeLoop_spec Nodes (Total / Nodes)
    (Total % Nodes) Position Nodes (by omega) (by omega) le_rfl
  have hsum : ∑ n ∈ Finset.range Nodes, NewSize n = Total := (sum_shares hsizes).trans hall
  have hwithin : ∀ n < Nodes, NewSize n ≤ Capacity := fun n hn => by
    rw [hsizes n hn]
    exact share_le (hroom.trans (Nat.mod_le _ _)) n
  have hbefore : ∀ n ≤ Nodes, ∑ k ∈ Finset.range n, NewSize k =
      shares (Total / Nodes) (Total % Nodes) n :=
    fun n hn => sum_shares fun k hk => hsizes k (by omega)
  have hat : ∀ n < Nodes, shares (Total / Nodes) (Total % Nodes) (n + 1) =
      shares (Total / Nodes) (Total % Nodes) n + NewSize n := fun n hn => by
    rw [shares_succ, hsizes n hn]
  rw [hloop, hall]
  dsimp only
  cases Grow with
  | false =>
    rw [if_pos ⟨rfl, by simp⟩]
    simp only [Bool.false_eq_true, if_false, Bool.toNat_false, Nat.add_zero] at hTotal ⊢
    rw [if_pos ⟨hwithin, by rw [hsum, unsigned_of rfl hsmall, hTotal]⟩]
    refine ⟨PosPair, NewSize, rfl, hsum.trans hTotal, hwithin, ?_, ?_, by simp⟩
    · rcases hplace with ⟨rfl, h⟩ | ⟨hlt, h, -⟩
      · dsimp only
        omega
      · rw [hbefore _ hlt.le, h]
    · rcases hplace with ⟨rfl, h⟩ | ⟨hlt, h, hend⟩
      · exact Or.inr ⟨rfl, rfl⟩
      · have := hat _ hlt
        exact Or.inl ⟨hlt, by simp only [Bool.toNat_false]; omega⟩
  | true =>
    simp only [Bool.toNat_true] at hTotal
    obtain ⟨hlt, hplace, hend⟩ := hplace.resolve_left fun h => by omega
    have hsize := hat _ hlt
    obtain ⟨rest, hrest⟩ : ∃ rest, NewSize PosPair.1 = rest + 1 :=
      ⟨NewSize PosPair.1 - 1, by omega⟩
    rw [if_pos ⟨rfl, fun _ => ⟨hlt, by omega⟩⟩]
    simp only [if_true]
    have hsum' : ∑ n ∈ Finset.range Nodes,
        Function.update NewSize PosPair.1 (NewSize PosPair.1 - 1) n = Elements := by
      have hmem := Finset.mem_range.mpr hlt
      rw [Finset.sum_update_of_mem hmem]
      rw [← Finset.add_sum_erase _ _ hmem, ← Finset.sdiff_singleton_eq_erase] at hsum
      omega
    have hwithin' : ∀ n < Nodes,
        Function.update NewSize PosPair.1 (NewSize PosPair.1 - 1) n ≤ Capacity := by
      intro n hn
      have hn := hwithin n hn
      rcases eq_or_ne n PosPair.1 with rfl | hne
      · rw [Function.update_self]
        omega
      · rwa [Function.update_of_ne hne]
    rw [if_pos ⟨hwithin', by rw [hsum', unsigned_of rfl (by omega)]⟩]
    refine ⟨PosPair, _, rfl, hsum', hwithin', ?_, Or.inl ⟨hlt, ?_⟩, fun _ => ⟨hlt, ?_⟩⟩
    · rw [← hplace, ← hbefore _ hlt.le]
      congr 1
      refine Finset.sum_congr rfl fun k hk => ?_
      rw [Function.update_of_ne (Finset.mem_range.mp hk).ne]
    · rw [Function.update_self, Bool.toNat_true]
      omega
    · have := hwithin _ hlt
      rw [Function.update_self]
      omega

end Distribute

/-- With an `int` for every difference of sizes, siblings get their sizes and keep their
elements; and the elements are distributed with a place for the position. -/
theorem siblings_rebalanced {N Nodes : ℕ} {NewSize : ℕ → ℕ} {s : Siblings T1 T2}
    (hN : N < 2 ^ 31) (hNodes : 0 < Nodes) (hfits : ∀ n < Nodes, s.CurSize n ≤ N)
    (hnew : ∀ n < Nodes, NewSize n ≤ N)
    (hsum : ∑ n ∈ Finset.range Nodes, s.CurSize n = ∑ n ∈ Finset.range Nodes, NewSize n)
    {Count Elements Capacity Position : ℕ} {Grow : Bool}
    (hroom : Elements + Grow.toNat ≤ Count * Capacity % 2 ^ 32) (hPosition : Position ≤ Elements) :
    (∃ s', adjustSiblingSizes N Nodes NewSize s = some s' ∧
      (∀ n < Nodes, s'.CurSize n = NewSize n) ∧ s'.elements Nodes = s.elements Nodes) ∧
    ∃ PosPair NewSize, distribute Count Elements Capacity Position Grow = some (PosPair, NewSize) ∧
      Distributed Count Elements Capacity Position Grow PosPair NewSize :=
  ⟨adjustSiblingSizes_spec hN hNodes hfits hnew hsum, distribute_spec hroom hPosition⟩

def numbered (CurSize : ℕ → ℕ) : Siblings ℕ ℕ := { Node := fun n => ⟨fun _ => n, id⟩, CurSize }

example : (adjustSiblingSizes 4 3 (fun _ => 2) (numbered fun n => if n = 0 then 4 else 1)).map
    (·.elements 3) = some [(0, 0), (0, 1), (0, 2), (0, 3), (1, 0), (2, 0)] := by
  decide +kernel

theorem siblings_rebalanced_three :
    (∃ s', adjustSiblingSizes 4 3 (fun _ => 2) (numbered fun n => if n = 0 then 4 else 1) = some s' ∧
      (∀ n < 3, s'.CurSize n = 2) ∧
      s'.elements 3 = (numbered fun n => if n = 0 then 4 else 1).elements 3) ∧
    ∃ PosPair NewSize, distribute 3 7 4 5 true = some (PosPair, NewSize) ∧
      Distributed 3 7 4 5 true PosPair NewSize :=
  siblings_rebalanced (by decide) (by decide) (by decide) (by decide) (by decide) (by decide)
    (by decide)

/-- A difference of `2 ^ 31` and more is taken for a negative one, and nothing moves. -/
theorem adjustSiblingSizes_wide :
    let CurSize n := if n = 0 then 2 ^ 31 + 1 else 0
    let NewSize n := if n = 1 then 2 ^ 31 + 1 else 0
    (∀ n < 2, CurSize n ≤ 2 ^ 32 - 1 ∧ NewSize n ≤ 2 ^ 32 - 1) ∧
      ∑ n ∈ Finset.range 2, CurSize n = ∑ n ∈ Finset.range 2, NewSize n ∧
      (adjustSiblingSizes (2 ^ 32 - 1) 2 NewSize (numbered CurSize)).isNone := by
  decide +kernel

end SmlnjLlvm.IntervalMapImpl
