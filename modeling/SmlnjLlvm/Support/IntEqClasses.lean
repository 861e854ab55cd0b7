import SmlnjLlvm.Library.DescendingForest
import SmlnjLlvm.Library.Loop

/-!
# Equivalence classes of integers

While classes are built, each integer maps to a smaller member of its class, and
the class leader to itself. Afterwards each integer maps to the number of its
class.
-/

namespace SmlnjLlvm

open Loop

structure IntEqClasses where
  EC : List Nat
  NumClasses : Nat
  deriving DecidableEq, Repr

namespace IntEqClasses

open DescendingForest

def empty : IntEqClasses := ⟨[], 0⟩

def grow (st : IntEqClasses) (N : Nat) : Option IntEqClasses :=
  if st.NumClasses = 0 then
    some { st with EC := st.EC ++ List.range' st.EC.length (N - st.EC.length) }
  else none

/-- The variables of the loop in `join`. -/
structure Joining where
  EC : List Nat
  a : Nat
  b : Nat
  eca : Nat
  ecb : Nat

def joinTurn (s : Joining) : Option (Turn Joining (Nat × List Nat)) :=
  if s.eca ≠ s.ecb then
    if s.eca < s.ecb then do
      let EC := s.EC.set s.b s.eca
      let ecb ← EC[s.ecb]?
      some (.next { s with EC := EC, b := s.ecb, ecb := ecb })
    else do
      let EC := s.EC.set s.a s.ecb
      let eca ← EC[s.eca]?
      some (.next { s with EC := EC, a := s.eca, eca := eca })
  else some (.exit (s.eca, s.EC))

def join (turns : Nat) (st : IntEqClasses) (a b : Nat) : Option (Nat × IntEqClasses) :=
  if st.NumClasses = 0 then do
    let eca ← st.EC[a]?
    let ecb ← st.EC[b]?
    let (leader, EC) ← loop joinTurn turns ⟨st.EC, a, b, eca, ecb⟩
    some (leader, { st with EC := EC })
  else none

def leaderTurn (EC : List Nat) (a : Nat) : Option (Turn Nat Nat) := do
  let ec ← EC[a]?
  if a ≠ ec then some (.next ec) else some (.exit a)

def findLeader (turns : Nat) (st : IntEqClasses) (a : Nat) : Option Nat :=
  if st.NumClasses = 0 then loop (leaderTurn st.EC) turns a else none

def compressTurn (st : IntEqClasses) (i : Nat) : Option IntEqClasses := do
  let ec ← st.EC[i]?
  if ec = i then some ⟨st.EC.set i st.NumClasses, st.NumClasses + 1⟩
  else do
    let number ← st.EC[ec]?
    some { st with EC := st.EC.set i number }

def compress (st : IntEqClasses) : Option IntEqClasses :=
  if st.NumClasses ≠ 0 then some st else (List.range st.EC.length).foldlM compressTurn st

def uncompressTurn (s : List Nat × List Nat) (i : Nat) : Option (List Nat × List Nat) := do
  let ec ← s.1[i]?
  if ec < s.2.length then do
    let leader ← s.2[ec]?
    some (s.1.set i leader, s.2)
  else some (s.1.set i i, s.2 ++ [i])

def uncompress (st : IntEqClasses) : Option IntEqClasses :=
  if st.NumClasses = 0 then some st
  else do
    let (EC, _) ← (List.range st.EC.length).foldlM uncompressTurn (st.EC, [])
    some ⟨EC, 0⟩

inductive Call where
  | grow (N : Nat)
  | join (a b : Nat)
  | compress
  | uncompress
  | clear

/-- The state after a call that returns, for any number of turns that its loop may take. -/
inductive Step : IntEqClasses → Call → IntEqClasses → Prop
  | grow {st st' : IntEqClasses} {N : Nat} (h : st.grow N = some st') : Step st (.grow N) st'
  | join {st st' : IntEqClasses} {a b r turns : Nat} (h : st.join turns a b = some (r, st')) :
      Step st (.join a b) st'
  | compress {st st' : IntEqClasses} (h : st.compress = some st') : Step st .compress st'
  | uncompress {st st' : IntEqClasses} (h : st.uncompress = some st') : Step st .uncompress st'
  | clear {st : IntEqClasses} : Step st .clear empty

inductive Run : List Call → IntEqClasses → Prop
  | nil : Run [] empty
  | snoc {calls : List Call} {st st' : IntEqClasses} {c : Call} (h : Run calls st)
      (hstep : Step st c st') : Run (calls ++ [c]) st'

def after : Nat × List (Nat × Nat) → Call → Nat × List (Nat × Nat)
  | (n, pairs), .grow N => (max n N, pairs)
  | (n, pairs), .join a b => (n, pairs ++ [(a, b)])
  | (n, pairs), .compress => (n, pairs)
  | (n, pairs), .uncompress => (n, pairs)
  | _, .clear => (0, [])

def size (calls : List Call) : Nat := (calls.foldl after (0, [])).1

def joined (calls : List Call) : List (Nat × Nat) := (calls.foldl after (0, [])).2

def Equivalent (pairs : List (Nat × Nat)) : Nat → Nat → Prop :=
  Relation.EqvGen fun i j => (i, j) ∈ pairs

def pointer (EC : List Nat) (i : Nat) : Nat := EC.getD i i

theorem getElem?_eq_pointer {EC : List Nat} {i : Nat} (h : i < EC.length) :
    EC[i]? = some (pointer EC i) := by
  rw [pointer, List.getD_eq_getElem?_getD, List.getElem?_eq_getElem h, Option.getD_some]

theorem pointer_of_le {EC : List Nat} {i : Nat} (h : EC.length ≤ i) : pointer EC i = i := by
  rw [pointer, List.getD_eq_getElem?_getD, List.getElem?_eq_none h, Option.getD_none]

theorem pointer_set {EC : List Nat} {b : Nat} (h : b < EC.length) (v : Nat) :
    pointer (EC.set b v) = Function.update (pointer EC) b v := by
  funext i
  by_cases hi : i = b
  · rw [hi, Function.update_self, pointer, List.getD_eq_getElem?_getD, List.getElem?_set_self h,
      Option.getD_some]
  · rw [Function.update_of_ne hi, pointer, List.getD_eq_getElem?_getD,
      List.getElem?_set_ne (Ne.symm hi), pointer, List.getD_eq_getElem?_getD]

theorem pointer_append_range' (EC : List Nat) (k : Nat) :
    pointer (EC ++ List.range' EC.length k) = pointer EC := by
  funext i
  by_cases hi : i < EC.length
  · rw [pointer, List.getD_eq_getElem?_getD, List.getElem?_append_left hi, pointer,
      List.getD_eq_getElem?_getD]
  · have hle := Nat.le_of_not_lt hi
    rw [pointer_of_le hle]
    by_cases hk : i - EC.length < k
    · rw [pointer, List.getD_eq_getElem?_getD, List.getElem?_append_right hle,
        List.getElem?_range' hk, Option.getD_some, Nat.one_mul, Nat.add_sub_cancel' hle]
    · apply pointer_of_le
      rw [List.length_append, List.length_range']
      omega

/-! ## Joining -/

/-- The walks of `join` from `a₀` and `b₀` have come to `a` and `b`. -/
structure Walks (n : Nat) (f : Nat → Nat) (a₀ b₀ : Nat) (EC : List Nat) (a b : Nat) : Prop where
  length : EC.length = n
  descending : Descending (pointer EC)
  a_lt : a < n
  b_lt : b < n
  linked : ∀ i j, LinkedWith (pointer EC) a b i j ↔ LinkedWith f a₀ b₀ i j
  start : LinkedWith f a₀ b₀ a₀ a
  free : Unobstructed (pointer EC) a b ↔ Unobstructed f a₀ b₀

/-- The classes are joined; the result is a member, and the leader if the walks are unobstructed. -/
structure JoinedAs (n : Nat) (f : Nat → Nat) (a₀ b₀ : Nat) (r : Nat × List Nat) : Prop where
  length : r.2.length = n
  descending : Descending (pointer r.2)
  linked : ∀ i j, Linked (pointer r.2) i j ↔ LinkedWith f a₀ b₀ i j
  member : Linked (pointer r.2) a₀ r.1
  leader : pointer r.2 r.1 = r.1 ↔ Unobstructed f a₀ b₀

section Walks

variable {n : Nat} {f : Nat → Nat} {a₀ b₀ : Nat} {EC : List Nat} {a b : Nat}

theorem Walks.symm (h : Walks n f a₀ b₀ EC a b) : Walks n f a₀ b₀ EC b a := by
  refine ⟨h.length, h.descending, h.b_lt, h.a_lt, fun i j => ?_, ?_, ?_⟩
  · exact linkedWith_comm.trans (h.linked i j)
  · exact .trans _ _ _ h.start ((h.linked a b).mp LinkedWith.pair)
  · exact unobstructed_comm.trans h.free

theorem Walks.redirect (h : Walks n f a₀ b₀ EC a b) (hlt : pointer EC a < pointer EC b) :
    Walks n f a₀ b₀ (EC.set b (pointer EC a)) a (pointer EC b) := by
  have hset := pointer_set (h.length.symm ▸ h.b_lt) (pointer EC a)
  refine ⟨?_, ?_, h.a_lt, ?_, fun i j => ?_, h.start, ?_⟩
  · rw [List.length_set, h.length]
  · rw [hset]
    exact descending_redirect h.descending hlt
  · exact Nat.lt_of_le_of_lt (h.descending b) h.b_lt
  · rw [hset, linkedWith_redirect (Nat.ne_of_lt hlt)]
    exact h.linked i j
  · rw [hset, unobstructed_redirect h.descending hlt]
    exact h.free

theorem Walks.read (h : Walks n f a₀ b₀ EC a b) {v : Nat} :
    (EC.set b v)[pointer EC b]? = some (pointer (EC.set b v) (pointer EC b)) ∧
      (pointer EC b = b → pointer (EC.set b v) (pointer EC b) = v) := by
  have hb : b < EC.length := h.length.symm ▸ h.b_lt
  refine ⟨getElem?_eq_pointer ?_, fun hleader => ?_⟩
  · rw [List.length_set]
    exact Nat.lt_of_le_of_lt (h.descending b) hb
  · rw [pointer_set hb, hleader, Function.update_self]

theorem Walks.meet (h : Walks n f a₀ b₀ EC a b) (heq : pointer EC a = pointer EC b) :
    JoinedAs n f a₀ b₀ (pointer EC a, EC) := by
  have hlinked (i j : Nat) : Linked (pointer EC) i j ↔ LinkedWith f a₀ b₀ i j :=
    (linkedWith_of_eq heq).symm.trans (h.linked i j)
  refine ⟨h.length, h.descending, hlinked, ?_, ?_⟩
  · exact .trans _ _ _ ((hlinked _ _).mpr h.start) (linked_apply a)
  · rw [← h.free, unobstructed_of_eq heq]

end Walks

/-- The variables between two turns. -/
structure Joining.Valid (n : Nat) (f : Nat → Nat) (a₀ b₀ : Nat) (s : Joining) : Prop where
  walks : Walks n f a₀ b₀ s.EC s.a s.b
  eca : s.eca = pointer s.EC s.a
  ecb : s.ecb = pointer s.EC s.b

def Joining.left (s : Joining) : Nat := 2 * (s.a + s.b) + if s.eca = s.ecb then 0 else 1

theorem joinTurn_spec {n : Nat} {f : Nat → Nat} {a₀ b₀ : Nat} {s : Joining}
    (h : s.Valid n f a₀ b₀) :
    ∃ t, joinTurn s = some t ∧
      t.Sat (fun s' => s'.Valid n f a₀ b₀ ∧ s'.left < s.left) (JoinedAs n f a₀ b₀) := by
  obtain ⟨EC, a, b, eca, ecb⟩ := s
  obtain ⟨hwalks, heca, hecb⟩ := h
  dsimp only at hwalks heca hecb
  subst heca hecb
  have ha := hwalks.descending a
  have hb := hwalks.descending b
  rcases Nat.lt_trichotomy (pointer EC a) (pointer EC b) with hlt | heq | hgt
  · obtain ⟨hread, hleader⟩ := hwalks.read (v := pointer EC a)
    have hnext := hwalks.redirect hlt
    have heca : pointer EC a = pointer (EC.set b (pointer EC a)) a := by
      have hne : a ≠ b := fun heq => absurd (congrArg (pointer EC) heq) (Nat.ne_of_lt hlt)
      rw [pointer_set (hwalks.length.symm ▸ hwalks.b_lt), Function.update_of_ne hne]
    refine ⟨.next ⟨EC.set b (pointer EC a), a, pointer EC b, pointer EC a,
      pointer (EC.set b (pointer EC a)) (pointer EC b)⟩, ?_, ⟨hnext, heca, rfl⟩, ?_⟩
    · simp only [joinTurn]
      rw [if_pos (Nat.ne_of_lt hlt), if_pos hlt, hread]
      rfl
    · unfold Joining.left
      dsimp only
      rw [if_neg (Nat.ne_of_lt hlt)]
      by_cases hroot : pointer EC b = b
      · rw [if_pos (hleader hroot).symm]
        omega
      · split <;> omega
  · refine ⟨.exit (pointer EC a, EC), ?_, hwalks.meet heq⟩
    simp only [joinTurn]
    rw [if_neg (not_not.mpr heq)]
  · have hnext := (hwalks.symm.redirect hgt).symm
    obtain ⟨hread, hleader⟩ := hwalks.symm.read (v := pointer EC b)
    have hecb : pointer EC b = pointer (EC.set a (pointer EC b)) b := by
      have hne : b ≠ a := fun heq => absurd (congrArg (pointer EC) heq) (Nat.ne_of_lt hgt)
      rw [pointer_set (hwalks.length.symm ▸ hwalks.a_lt), Function.update_of_ne hne]
    refine ⟨.next ⟨EC.set a (pointer EC b), pointer EC a, b,
      pointer (EC.set a (pointer EC b)) (pointer EC a), pointer EC b⟩, ?_, ⟨hnext, rfl, hecb⟩, ?_⟩
    · simp only [joinTurn]
      rw [if_pos (Nat.ne_of_gt hgt), if_neg (Nat.not_lt.mpr (Nat.le_of_lt hgt)), hread]
      rfl
    · unfold Joining.left
      dsimp only
      rw [if_neg (Nat.ne_of_gt hgt)]
      by_cases hroot : pointer EC a = a
      · rw [if_pos (hleader hroot)]
        omega
      · split <;> omega

/-- The classes of the relation `R` on `n` integers are under construction. -/
structure Building (n : Nat) (R : Nat → Nat → Prop) (st : IntEqClasses) : Prop where
  numClasses : st.NumClasses = 0
  length : st.EC.length = n
  descending : Descending (pointer st.EC)
  linked : ∀ i j, Linked (pointer st.EC) i j ↔ R i j

section Building

variable {n : Nat} {R : Nat → Nat → Prop} {st : IntEqClasses}

theorem Building.isLeast_root (h : Building n R st) (i : Nat) :
    IsLeast {j | R i j} (root (pointer st.EC) i) := by
  have hleast := DescendingForest.isLeast_root h.descending i
  simpa only [h.linked] using hleast

theorem Building.grow (h : Building n R st) (N : Nat) :
    ∃ st', st.grow N = some st' ∧ Building (max n N) R st' := by
  refine ⟨_, if_pos h.numClasses, h.numClasses, ?_, ?_, ?_⟩
  · rw [List.length_append, List.length_range', h.length]
    omega
  · rw [pointer_append_range']
    exact h.descending
  · rw [pointer_append_range']
    exact h.linked

theorem Building.join (h : Building n R st) {a b : Nat} (ha : a < n) (hb : b < n) :
    ∃ r st', (∀ turns, 2 * (a + b) + 1 < turns → st.join turns a b = some (r, st')) ∧
      (∀ R', (∀ i j, LinkedWith (pointer st.EC) a b i j ↔ R' i j) →
        Building n R' st' ∧ (IsLeast {j | R' a j} r ↔ Unobstructed (pointer st.EC) a b)) := by
  obtain ⟨s, hs⟩ : ∃ s : Joining, s = ⟨st.EC, a, b, pointer st.EC a, pointer st.EC b⟩ := ⟨_, rfl⟩
  have hstart : s.Valid n (pointer st.EC) a b := by
    rw [hs]
    exact ⟨⟨h.length, h.descending, ha, hb, fun _ _ => Iff.rfl, .refl a, Iff.rfl⟩, rfl, rfl⟩
  have hrule : ∃ r, (∀ fuel, 0 < fuel → ∀ turns, s.left < turns → loop joinTurn turns s = some r) ∧
      JoinedAs n (pointer st.EC) a b r := by
    refine loop_rule (fun _ => joinTurn) 0 Joining.left (fun s hs => ?_) hstart
    obtain ⟨t, ht, hsat⟩ := joinTurn_spec hs
    exact ⟨t, fun _ _ => ht, hsat⟩
  obtain ⟨⟨r, EC⟩, hrun, hjoined⟩ := hrule
  refine ⟨r, { st with EC := EC }, fun turns hturns => ?_, fun R' hR' => ?_⟩
  · have hleft : s.left ≤ 2 * (a + b) + 1 := by
      rw [hs, Joining.left]
      dsimp only
      split <;> omega
    unfold IntEqClasses.join
    rw [if_pos h.numClasses, getElem?_eq_pointer (h.length.symm ▸ ha),
      getElem?_eq_pointer (h.length.symm ▸ hb)]
    have hdone := hrun 1 Nat.one_pos turns (Nat.lt_of_le_of_lt hleft hturns)
    rw [hs] at hdone
    simp [hdone]
  · have hlinked (i j : Nat) : Linked (pointer EC) i j ↔ R' i j :=
      (hjoined.linked i j).trans (hR' i j)
    have hbuilding : Building n R' { st with EC := EC } :=
      ⟨h.numClasses, hjoined.length, hjoined.descending, hlinked⟩
    refine ⟨hbuilding, ?_⟩
    rw [← hjoined.leader]
    have hleast := hbuilding.isLeast_root a
    have hroot := (linked_iff hjoined.descending).mp hjoined.member
    constructor
    · intro hr
      rw [hr.unique hleast]
      exact root_fixed hjoined.descending a
    · intro hfix
      dsimp only at hroot hfix hleast
      rw [root_of_fixed hfix] at hroot
      rwa [← hroot]

theorem Building.findLeader (h : Building n R st) {a : Nat} (ha : a < n) :
    ∀ turns, a < turns → st.findLeader turns a = some (root (pointer st.EC) a) := by
  have hturn : ∀ x, (x < n ∧ root (pointer st.EC) x = root (pointer st.EC) a) →
      ∃ t, (∀ fuel, 0 < fuel → leaderTurn st.EC x = some t) ∧
        t.Sat (fun x' => (x' < n ∧ root (pointer st.EC) x' = root (pointer st.EC) a) ∧ id x' < id x)
          (fun r => r = root (pointer st.EC) a) := by
    rintro x ⟨hlt, hroot⟩
    have hread := getElem?_eq_pointer (h.length.symm ▸ hlt)
    by_cases hfix : pointer st.EC x = x
    · refine ⟨.exit x, fun _ _ => ?_, ?_⟩
      · rw [leaderTurn, hread]
        simp [hfix]
      · exact (root_of_fixed hfix).symm.trans hroot
    · have hle := h.descending x
      refine ⟨.next (pointer st.EC x), fun _ _ => ?_, ⟨by omega, ?_⟩, ?_⟩
      · rw [leaderTurn, hread]
        simp [Ne.symm hfix]
      · rw [root_apply h.descending, hroot]
      · exact Nat.lt_of_le_of_ne hle hfix
  obtain ⟨r, hrun, rfl⟩ := loop_rule (fun _ => leaderTurn st.EC) 0 id hturn ⟨ha, rfl⟩
  intro turns hturns
  rw [IntEqClasses.findLeader, if_pos h.numClasses]
  exact hrun 1 Nat.one_pos turns hturns

end Building

/-! ## Numbered classes -/

/-- The classes of `R` have been numbered by their leaders, those of the pointers `f`. -/
structure Numbered (n : Nat) (R : Nat → Nat → Prop) (f : Nat → Nat) (st : IntEqClasses) : Prop where
  numClasses : st.NumClasses = rank f n
  length : st.EC.length = n
  descending : Descending f
  beyond : ∀ i, n ≤ i → f i = i
  linked : ∀ i j, Linked f i j ↔ R i j
  number : ∀ i < n, pointer st.EC i = rank f (root f i)

/-- The first `i` integers have been numbered. -/
structure Numbering (n : Nat) (f : Nat → Nat) (i : Nat) (st : IntEqClasses) : Prop where
  numClasses : st.NumClasses = rank f i
  length : st.EC.length = n
  numbered : ∀ j < i, pointer st.EC j = rank f (root f j)
  rest : ∀ j, i ≤ j → pointer st.EC j = f j

theorem compressTurn_spec {n : Nat} {f : Nat → Nat} (hf : Descending f) {i : Nat} (hi : i < n)
    {st : IntEqClasses} (h : Numbering n f i st) :
    ∃ st', compressTurn st i = some st' ∧ Numbering n f (i + 1) st' := by
  have hlt : i < st.EC.length := h.length.symm ▸ hi
  have hread := getElem?_eq_pointer hlt
  rw [h.rest i (Nat.le_refl i)] at hread
  have hstep (v k : Nat) (hv : v = rank f (root f i)) (hk : k = rank f (i + 1)) :
      Numbering n f (i + 1) ⟨st.EC.set i v, k⟩ := by
    refine ⟨hk, ?_, fun j hj => ?_, fun j hj => ?_⟩
    · rw [List.length_set, h.length]
    · rw [pointer_set hlt]
      rcases Nat.lt_succ_iff_lt_or_eq.mp hj with hlow | rfl
      · rw [Function.update_of_ne (Nat.ne_of_lt hlow)]
        exact h.numbered j hlow
      · rw [Function.update_self]
        exact hv
    · rw [pointer_set hlt, Function.update_of_ne (Nat.ne_of_gt hj)]
      exact h.rest j (Nat.le_of_succ_le hj)
  unfold compressTurn
  rw [hread]
  by_cases hfix : f i = i
  · refine ⟨⟨st.EC.set i st.NumClasses, st.NumClasses + 1⟩, by simp [hfix], hstep _ _ ?_ ?_⟩
    · rw [h.numClasses, root_of_fixed hfix]
    · rw [h.numClasses, rank_succ_of_fixed hfix]
  · -- The pointer goes to an integer that has its number already.
    have hlow : f i < i := Nat.lt_of_le_of_ne (hf i) hfix
    have hnumber := getElem?_eq_pointer (Nat.lt_trans hlow hlt)
    rw [h.numbered (f i) hlow, root_apply hf] at hnumber
    refine ⟨⟨st.EC.set i (rank f (root f i)), st.NumClasses⟩, by simp [hfix, hnumber],
      hstep _ _ rfl ?_⟩
    rw [h.numClasses, rank_succ_of_ne hfix]

theorem Building.compress {n : Nat} {R : Nat → Nat → Prop} {st : IntEqClasses}
    (h : Building n R st) : ∃ st', st.compress = some st' ∧ Numbered n R (pointer st.EC) st' := by
  have hstart : Numbering n (pointer st.EC) 0 st :=
    ⟨h.numClasses, h.length, fun j hj => absurd hj (Nat.not_lt_zero j), fun _ _ => rfl⟩
  obtain ⟨st', hrun, hend⟩ := foldlM_range_rule (Numbering n (pointer st.EC)) hstart
    fun i hi s hs => compressTurn_spec h.descending hi hs
  refine ⟨st', ?_, hend.numClasses, hend.length, h.descending, fun i hi => ?_, h.linked,
    hend.numbered⟩
  · rw [IntEqClasses.compress, if_neg (not_not.mpr h.numClasses), h.length]
    exact hrun
  · exact pointer_of_le (h.length.symm ▸ hi)

/-- The first `i` integers map to their leaders again; the leaders among them are listed. -/
structure Restoring (n : Nat) (f : Nat → Nat) (i : Nat) (s : List Nat × List Nat) : Prop where
  length : s.1.length = n
  leaders : s.2 = roots f i
  restored : ∀ j < i, pointer s.1 j = root f j
  rest : ∀ j, i ≤ j → j < n → pointer s.1 j = rank f (root f j)

theorem uncompressTurn_spec {n : Nat} {f : Nat → Nat} (hf : Descending f) {i : Nat} (hi : i < n)
    {s : List Nat × List Nat} (h : Restoring n f i s) :
    ∃ s', uncompressTurn s i = some s' ∧ Restoring n f (i + 1) s' := by
  have hlt : i < s.1.length := h.length.symm ▸ hi
  have hread := getElem?_eq_pointer hlt
  rw [h.rest i (Nat.le_refl i) hi] at hread
  have hlength : s.2.length = rank f i := by rw [h.leaders, rank]
  have hstep (v : Nat) (L : List Nat) (hv : v = root f i) (hL : L = roots f (i + 1)) :
      Restoring n f (i + 1) (s.1.set i v, L) := by
    refine ⟨?_, hL, fun j hj => ?_, fun j hj hjn => ?_⟩
    · rw [List.length_set, h.length]
    · rw [pointer_set hlt]
      rcases Nat.lt_succ_iff_lt_or_eq.mp hj with hlow | rfl
      · rw [Function.update_of_ne (Nat.ne_of_lt hlow)]
        exact h.restored j hlow
      · rw [Function.update_self]
        exact hv
    · rw [pointer_set hlt, Function.update_of_ne (Nat.ne_of_gt hj)]
      exact h.rest j (Nat.le_of_succ_le hj) hjn
  unfold uncompressTurn
  rw [hread]
  by_cases hfix : f i = i
  · refine ⟨(s.1.set i i, s.2 ++ [i]), ?_, hstep _ _ (root_of_fixed hfix).symm ?_⟩
    · simp [root_of_fixed hfix, hlength]
    · rw [h.leaders, roots_succ_of_fixed hfix]
  · have hlow := root_lt hf hfix
    have hleader := roots_get_rank (root_fixed hf i) hlow
    rw [← h.leaders] at hleader
    refine ⟨(s.1.set i (root f i), s.2), ?_, hstep _ _ rfl ?_⟩
    · rw [some_bind,
        if_pos (hlength.symm ▸ rank_lt (root_fixed hf i) hlow), hleader]
      rfl
    · rw [h.leaders, roots_succ_of_ne hfix]

theorem Numbered.restored {n : Nat} {R : Nat → Nat → Prop} {f : Nat → Nat} {st : IntEqClasses}
    (h : Numbered n R f st) {EC : List Nat} (hlength : EC.length = n)
    (hEC : ∀ i < n, pointer EC i = root f i) : Building n R ⟨EC, 0⟩ := by
  have hpointer : pointer EC = root f := by
    funext i
    by_cases hi : i < n
    · exact hEC i hi
    · have hle := Nat.le_of_not_lt hi
      rw [pointer_of_le (hlength.symm ▸ hle), root_of_fixed (h.beyond i hle)]
  refine ⟨rfl, hlength, ?_, fun i j => ?_⟩
  · rw [hpointer]
    exact root_le h.descending
  · rw [hpointer, linked_root_iff h.descending]
    exact h.linked i j

theorem Numbered.eq_zero {n : Nat} {R : Nat → Nat → Prop} {f : Nat → Nat} {st : IntEqClasses}
    (h : Numbered n R f st) (hzero : st.NumClasses = 0) : n = 0 := by
  by_contra hn
  have hlt := rank_lt (Nat.le_zero.mp (h.descending 0)) (Nat.pos_of_ne_zero hn)
  rw [← h.numClasses, hzero] at hlt
  exact Nat.not_lt_zero _ hlt

theorem Numbered.uncompress {n : Nat} {R : Nat → Nat → Prop} {f : Nat → Nat} {st : IntEqClasses}
    (h : Numbered n R f st) : ∃ st', st.uncompress = some st' ∧ Building n R st' := by
  by_cases hzero : st.NumClasses = 0
  · obtain rfl := h.eq_zero hzero
    obtain ⟨EC, NumClasses⟩ := st
    obtain rfl : NumClasses = 0 := hzero
    exact ⟨_, rfl, h.restored h.length fun i hi => absurd hi (Nat.not_lt_zero i)⟩
  · have hstart : Restoring n f 0 (st.EC, []) :=
      ⟨h.length, rfl, fun j hj => absurd hj (Nat.not_lt_zero j), fun j _ hj => h.number j hj⟩
    obtain ⟨⟨EC, L⟩, hrun, hend⟩ := foldlM_range_rule (Restoring n f) hstart
      fun i hi s hs => uncompressTurn_spec h.descending hi hs
    refine ⟨⟨EC, 0⟩, ?_, h.restored hend.length hend.restored⟩
    rw [IntEqClasses.uncompress, if_neg hzero, h.length, hrun]
    rfl

/-- Under construction, integers map to no larger ones, and leaders are least elements. -/
structure HasLeaders (n : Nat) (R : Nat → Nat → Prop) (st : IntEqClasses) : Prop where
  length : st.EC.length = n
  le : ∀ i e : Nat, st.EC[i]? = some e → e ≤ i
  leader : ∀ a < n, ∃ r, (∀ turns, a < turns → st.findLeader turns a = some r) ∧
    IsLeast {j | R a j} r

/-- The classes are numbered from zero in the order of their least elements. -/
structure Numbers (n : Nat) (R : Nat → Nat → Prop) (st : IntEqClasses) : Prop where
  length : st.EC.length = n
  number : ∀ i < n, ∃ c, st.EC[i]? = some c ∧ c ≤ i ∧ c < st.NumClasses
  onto : ∀ c < st.NumClasses, ∃ i < n, st.EC[i]? = some c
  same : ∀ i < n, ∀ j < n, st.EC[i]? = st.EC[j]? ↔ R i j
  order : ∀ i < n, ∀ j < n, ∀ r r' c c' : Nat, IsLeast {k | R i k} r → IsLeast {k | R j k} r' →
    st.EC[i]? = some c → st.EC[j]? = some c' → (c < c' ↔ r < r')

theorem Building.hasLeaders {n : Nat} {R : Nat → Nat → Prop} {st : IntEqClasses} (h : Building n R st) :
    HasLeaders n R st := by
  refine ⟨h.length, fun i e he => ?_, fun a ha => ⟨_, h.findLeader ha, h.isLeast_root a⟩⟩
  obtain ⟨hlt, -⟩ := List.getElem?_eq_some_iff.mp he
  rw [getElem?_eq_pointer hlt] at he
  exact Option.some.inj he ▸ h.descending i

theorem Numbered.numbers {n : Nat} {R : Nat → Nat → Prop} {f : Nat → Nat} {st : IntEqClasses}
    (h : Numbered n R f st) : Numbers n R st := by
  have hread (i : Nat) (hi : i < n) : st.EC[i]? = some (rank f (root f i)) := by
    rw [getElem?_eq_pointer (h.length.symm ▸ hi), h.number i hi]
  have hfixed := root_fixed h.descending
  refine ⟨h.length, fun i hi => ⟨_, hread i hi, ?_, ?_⟩, fun c hc => ?_, fun i hi j hj => ?_, ?_⟩
  · exact Nat.le_trans (rank_le _) (root_le h.descending i)
  · rw [h.numClasses]
    exact rank_lt (hfixed i) (Nat.lt_of_le_of_lt (root_le h.descending i) hi)
  · rw [h.numClasses] at hc
    obtain ⟨r, hr, hfix, hrank⟩ := exists_root_of_lt_rank hc
    refine ⟨r, hr, ?_⟩
    rw [hread r hr, root_of_fixed hfix, hrank]
  · rw [hread i hi, hread j hj, ← h.linked, linked_iff h.descending]
    constructor
    · exact fun heq => rank_inj (hfixed i) (hfixed j) (Option.some.inj heq)
    · exact fun heq => by rw [heq]
  · intro i hi j hj r r' c c' hr hr' hc hc'
    have hleast (k : Nat) : IsLeast {l | R k l} (root f k) := by
      have hroot := DescendingForest.isLeast_root h.descending k
      simpa only [h.linked] using hroot
    rw [hread i hi] at hc
    rw [hread j hj] at hc'
    cases hc
    cases hc'
    rw [hr.unique (hleast i), hr'.unique (hleast j)]
    constructor
    · intro hlt
      by_contra hge
      exact absurd (rank_mono (Nat.le_of_not_lt hge)) (Nat.not_le.mpr hlt)
    · exact rank_lt (hfixed i)

/-! ## Reachable classes -/

def Represents (n : Nat) (R : Nat → Nat → Prop) (st : IntEqClasses) : Prop :=
  if st.NumClasses = 0 then Building n R st else ∃ f, Numbered n R f st

section Represents

variable {n : Nat} {R : Nat → Nat → Prop} {st : IntEqClasses}

theorem Building.represents (h : Building n R st) : Represents n R st := by
  unfold Represents
  rwa [if_pos h.numClasses]

theorem Represents.building (h : Represents n R st) (hzero : st.NumClasses = 0) :
    Building n R st := by
  unfold Represents at h
  rwa [if_pos hzero] at h

theorem Represents.compress (h : Represents n R st) :
    ∃ st' f, st.compress = some st' ∧ Numbered n R f st' := by
  unfold Represents at h
  by_cases hzero : st.NumClasses = 0
  · rw [if_pos hzero] at h
    obtain ⟨st', hrun, hnumbered⟩ := h.compress
    exact ⟨st', _, hrun, hnumbered⟩
  · rw [if_neg hzero] at h
    obtain ⟨f, hnumbered⟩ := h
    exact ⟨st, f, if_pos hzero, hnumbered⟩

theorem Represents.uncompress (h : Represents n R st) :
    ∃ st', st.uncompress = some st' ∧ Building n R st' := by
  unfold Represents at h
  by_cases hzero : st.NumClasses = 0
  · rw [if_pos hzero] at h
    exact ⟨st, if_pos hzero, h⟩
  · rw [if_neg hzero] at h
    obtain ⟨f, hnumbered⟩ := h
    exact hnumbered.uncompress

theorem Numbered.represents {f : Nat → Nat} (h : Numbered n R f st) : Represents n R st := by
  unfold Represents
  split
  · rename_i hzero
    obtain ⟨st', hrun, hbuilding⟩ := h.uncompress
    rw [IntEqClasses.uncompress, if_pos hzero] at hrun
    cases hrun
    exact hbuilding
  · exact ⟨f, h⟩

end Represents

theorem empty_building : Building 0 (Equivalent []) empty := by
  have hself (i : Nat) : pointer empty.EC i = i := rfl
  refine ⟨rfl, rfl, fun i => Nat.le_refl i, fun i j => ⟨?_, ?_⟩⟩
  · refine eqvGen_of fun i j hij => ?_
    rw [← hij, hself]
    exact .refl i
  · refine eqvGen_of fun i j hij => ?_
    cases hij

theorem equivalent_append {pairs : List (Nat × Nat)} {f : Nat → Nat}
    (h : ∀ i j, Linked f i j ↔ Equivalent pairs i j) (a b i j : Nat) :
    LinkedWith f a b i j ↔ Equivalent (pairs ++ [(a, b)]) i j := by
  have hold {i j : Nat} (hij : Equivalent pairs i j) : Equivalent (pairs ++ [(a, b)]) i j :=
    eqvGen_of (fun i j hmem => .rel i j (List.mem_append_left _ hmem)) hij
  constructor
  · refine eqvGen_of fun i j hij => ?_
    rcases hij with hij | ⟨rfl, rfl⟩
    · exact hold ((h i j).mp (.rel i j hij))
    · exact .rel i j (List.mem_append_right _ (List.mem_singleton_self _))
  · refine eqvGen_of fun i j hij => ?_
    rcases List.mem_append.mp hij with hij | hij
    · have hlinked := (h i j).mpr (.rel i j hij)
      exact eqvGen_of (fun i j hij => .rel i j (Or.inl hij)) hlinked
    · cases List.mem_singleton.mp hij
      exact LinkedWith.pair

theorem join_add {turns : Nat} {st : IntEqClasses} {a b : Nat} {p : Nat × IntEqClasses}
    (h : st.join turns a b = some p) (more : Nat) : st.join (turns + more) a b = some p := by
  unfold join at h ⊢
  split at h
  · rename_i hzero
    rw [if_pos hzero]
    obtain ⟨eca, heca, h⟩ := Option.bind_eq_some_iff.mp h
    obtain ⟨ecb, hecb, h⟩ := Option.bind_eq_some_iff.mp h
    obtain ⟨r, hr, h⟩ := Option.bind_eq_some_iff.mp h
    simp only [heca, hecb, Option.bind_eq_bind, Option.bind_some, loop_add hr more]
    exact h
  · cases h

theorem join_range {turns : Nat} {st : IntEqClasses} {a b : Nat} {p : Nat × IntEqClasses}
    (h : st.join turns a b = some p) :
    st.NumClasses = 0 ∧ a < st.EC.length ∧ b < st.EC.length := by
  unfold join at h
  split at h
  · rename_i hzero
    obtain ⟨eca, heca, h⟩ := Option.bind_eq_some_iff.mp h
    obtain ⟨ecb, hecb, -⟩ := Option.bind_eq_some_iff.mp h
    exact ⟨hzero, (List.getElem?_eq_some_iff.mp heca).1, (List.getElem?_eq_some_iff.mp hecb).1⟩
  · cases h

theorem Step.represents {n : Nat} {pairs : List (Nat × Nat)} {st st' : IntEqClasses} {c : Call}
    (hstep : Step st c st') (h : Represents n (Equivalent pairs) st) :
    Represents (after (n, pairs) c).1 (Equivalent (after (n, pairs) c).2) st' := by
  cases hstep with
  | @grow _ N hgrow =>
    have hzero : st.NumClasses = 0 := by
      by_contra hne
      rw [IntEqClasses.grow, if_neg hne] at hgrow
      cases hgrow
    obtain ⟨st'', hrun, hbuilding⟩ := (h.building hzero).grow N
    cases hgrow.symm.trans hrun
    exact hbuilding.represents
  | @join _ a b r turns hjoin =>
    obtain ⟨hzero, ha, hb⟩ := join_range hjoin
    have hbuilding := h.building hzero
    rw [hbuilding.length] at ha hb
    obtain ⟨r', st'', hrun, hspec⟩ := hbuilding.join ha hb
    have hmore := join_add hjoin (2 * (a + b) + 2)
    rw [hrun _ (by omega)] at hmore
    cases hmore
    exact (hspec _ (equivalent_append hbuilding.linked a b)).1.represents
  | compress hcompress =>
    obtain ⟨st'', f, hrun, hnumbered⟩ := h.compress
    cases hcompress.symm.trans hrun
    exact hnumbered.represents
  | uncompress huncompress =>
    obtain ⟨st'', hrun, hbuilding⟩ := h.uncompress
    cases huncompress.symm.trans hrun
    exact hbuilding.represents
  | clear => exact empty_building.represents

theorem Run.represents {calls : List Call} {st : IntEqClasses} (h : Run calls st) :
    Represents (size calls) (Equivalent (joined calls)) st := by
  induction h with
  | nil => exact empty_building.represents
  | snoc _ hstep ih =>
    unfold size joined at ih ⊢
    rw [List.foldl_append]
    exact hstep.represents ih

/--
In every run the classes are those of the joined pairs. A `join` returns the
least element of the joined class if and only if its walks are unobstructed.
-/
theorem run_classes {calls : List Call} {st : IntEqClasses} (h : Run calls st) :
    (st.NumClasses = 0 →
      HasLeaders (size calls) (Equivalent (joined calls)) st ∧
      ∀ a < size calls, ∀ b < size calls, ∃ r st',
        (∀ turns, 2 * (a + b) + 1 < turns → st.join turns a b = some (r, st')) ∧
        (IsLeast {j | Equivalent (joined (calls ++ [.join a b])) a j} r ↔
          Unobstructed (pointer st.EC) a b)) ∧
    (∃ st', st.compress = some st' ∧ Numbers (size calls) (Equivalent (joined calls)) st') ∧
    ∃ st', st.uncompress = some st' ∧ st'.NumClasses = 0 ∧
      HasLeaders (size calls) (Equivalent (joined calls)) st' := by
  have hrepresents := h.represents
  refine ⟨fun hzero => ?_, ?_, ?_⟩
  · have hbuilding := hrepresents.building hzero
    refine ⟨hbuilding.hasLeaders, fun a ha b hb => ?_⟩
    obtain ⟨r, st', hrun, hspec⟩ := hbuilding.join ha hb
    refine ⟨r, st', hrun, ?_⟩
    have hjoined : joined (calls ++ [.join a b]) = joined calls ++ [(a, b)] := by
      unfold joined
      rw [List.foldl_append]
      rfl
    rw [hjoined]
    exact (hspec _ (equivalent_append hbuilding.linked a b)).2
  · obtain ⟨st', f, hrun, hnumbered⟩ := hrepresents.compress
    exact ⟨st', hrun, hnumbered.numbers⟩
  · obtain ⟨st', hrun, hbuilding⟩ := hrepresents.uncompress
    exact ⟨st', hrun, hbuilding.numClasses, hbuilding.hasLeaders⟩

theorem run_pair :
    Run [.grow 2, .join 0 1] ⟨[0, 0], 0⟩ ∧
      ∃ st', compress ⟨[0, 0], 0⟩ = some st' ∧ Numbers 2 (Equivalent [(0, 1)]) st' := by
  have hgrow : Step empty (.grow 2) ⟨[0, 1], 0⟩ := .grow rfl
  have hjoin : join 3 ⟨[0, 1], 0⟩ 0 1 = some (0, ⟨[0, 0], 0⟩) := rfl
  have hrun : Run [.grow 2, .join 0 1] ⟨[0, 0], 0⟩ := (Run.nil.snoc hgrow).snoc (.join hjoin)
  exact ⟨hrun, (run_classes hrun).2.1⟩

/-- Two integers with a common pointer that is no leader: `join` returns that pointer. -/
theorem join_returns_one :
    ∃ st, Run [.grow 4, .join 1 2, .join 1 3, .join 0 1] st ∧
      (∀ turns, 0 < turns → st.join turns 2 3 = some (1, st)) ∧
      ¬IsLeast {j | Equivalent [(1, 2), (1, 3), (0, 1), (2, 3)] 2 j} 1 := by
  have hgrow : Step empty (.grow 4) ⟨[0, 1, 2, 3], 0⟩ := .grow rfl
  have hjoin : join 4 ⟨[0, 1, 2, 3], 0⟩ 1 2 = some (1, ⟨[0, 1, 1, 3], 0⟩) := rfl
  have hjoin' : join 4 ⟨[0, 1, 1, 3], 0⟩ 1 3 = some (1, ⟨[0, 1, 1, 1], 0⟩) := rfl
  have hjoin'' : join 4 ⟨[0, 1, 1, 1], 0⟩ 0 1 = some (0, ⟨[0, 0, 1, 1], 0⟩) := rfl
  refine ⟨⟨[0, 0, 1, 1], 0⟩, ?_, fun turns hturns => ?_, fun hleast => ?_⟩
  · exact (((Run.nil.snoc hgrow).snoc (.join hjoin)).snoc (.join hjoin')).snoc (.join hjoin'')
  · cases turns with
    | zero => exact absurd hturns (Nat.lt_irrefl 0)
    | succ turns => rfl
  · have hzero : Equivalent [(1, 2), (1, 3), (0, 1), (2, 3)] 2 0 :=
      .trans _ _ _ (.symm _ _ (.rel 1 2 (by decide))) (.symm _ _ (.rel 0 1 (by decide)))
    exact Nat.not_succ_le_zero 0 (hleast.2 hzero)

end IntEqClasses

end SmlnjLlvm
