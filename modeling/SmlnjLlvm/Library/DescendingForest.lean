import Mathlib.Data.List.Range
import Mathlib.Logic.Function.Iterate
import Mathlib.Logic.Relation
import Mathlib.Order.Bounds.Basic

/-!
# Forests of descending pointers

Each number points to itself or to a smaller one, so that every path ends in a
fixed point: the least number that is linked with those on the path. Two paths
are joined by redirecting the larger pointer, step by step.
-/

namespace SmlnjLlvm.DescendingForest

def Descending (f : Nat → Nat) : Prop := ∀ i, f i ≤ i

/-- The smallest equivalence that links each number with the one it points to. -/
def Linked (f : Nat → Nat) : Nat → Nat → Prop := Relation.EqvGen fun i j => f i = j

/-- Where the path from a number ends. -/
def root (f : Nat → Nat) (i : Nat) : Nat := f^[i] i

theorem eqvGen_of {α : Type} {r s : α → α → Prop} (h : ∀ i j, r i j → Relation.EqvGen s i j)
    {i j : α} (hij : Relation.EqvGen r i j) : Relation.EqvGen s i j := by
  induction hij with
  | rel i j hr => exact h i j hr
  | refl i => exact .refl i
  | symm i j _ ih => exact .symm i j ih
  | trans i j k _ _ ih ih' => exact .trans i j k ih ih'

variable {i j n r x : Nat}

section Roots

variable {f : Nat → Nat}

theorem iterate_fixed (hf : Descending f) (h : i ≤ n) : f (f^[n] i) = f^[n] i := by
  induction n generalizing i with
  | zero =>
    have hi : i = 0 := Nat.le_zero.mp h
    rw [hi, Function.iterate_zero, id_eq]
    exact Nat.le_zero.mp (hf 0)
  | succ n ih =>
    rw [Function.iterate_succ_apply]
    by_cases hfix : f i = i
    · rw [hfix, Function.iterate_fixed hfix, hfix]
    · have hlt := Nat.lt_of_le_of_ne (hf i) hfix
      exact ih (Nat.le_of_lt_succ (Nat.lt_of_lt_of_le hlt h))

theorem iterate_eq_root (hf : Descending f) (h : i ≤ n) : f^[n] i = root f i := by
  obtain ⟨k, rfl⟩ := Nat.exists_eq_add_of_le h
  induction k with
  | zero => rfl
  | succ k ih =>
    rw [← Nat.add_assoc, Function.iterate_succ_apply']
    exact (iterate_fixed hf (Nat.le_add_right i k)).trans (ih (Nat.le_add_right i k))

theorem root_fixed (hf : Descending f) (i : Nat) : f (root f i) = root f i :=
  iterate_fixed hf (Nat.le_refl i)

theorem root_of_fixed (h : f i = i) : root f i = i := Function.iterate_fixed h i

theorem root_apply (hf : Descending f) (i : Nat) : root f (f i) = root f i := by
  rw [← iterate_eq_root hf (Nat.le_succ i), Function.iterate_succ_apply]
  exact (iterate_eq_root hf (hf i)).symm

theorem root_le (hf : Descending f) (i : Nat) : root f i ≤ i := by
  have hall (n : Nat) : f^[n] i ≤ i := by
    induction n with
    | zero => exact Nat.le_refl i
    | succ n ih =>
      rw [Function.iterate_succ_apply']
      exact Nat.le_trans (hf _) ih
  exact hall i

theorem root_lt (hf : Descending f) (h : f i ≠ i) : root f i < i := by
  refine Nat.lt_of_le_of_ne (root_le hf i) fun heq => h ?_
  rw [← heq]
  exact root_fixed hf i

theorem linked_apply (i : Nat) : Linked f i (f i) := .rel i (f i) rfl

theorem linked_root (f : Nat → Nat) (i : Nat) : Linked f i (root f i) := by
  have hall (n : Nat) : Linked f i (f^[n] i) := by
    induction n with
    | zero => exact .refl i
    | succ n ih =>
      rw [Function.iterate_succ_apply']
      exact .trans _ _ _ ih (linked_apply _)
  exact hall i

theorem linked_iff (hf : Descending f) : Linked f i j ↔ root f i = root f j := by
  constructor
  · intro h
    induction h with
    | rel i j hij => rw [← hij, root_apply hf]
    | refl i => rfl
    | symm i j _ ih => exact ih.symm
    | trans i j k _ _ ih ih' => exact ih.trans ih'
  · intro h
    refine .trans _ _ _ (linked_root f i) ?_
    rw [h]
    exact .symm _ _ (linked_root f j)

theorem isLeast_root (hf : Descending f) (i : Nat) : IsLeast {j | Linked f i j} (root f i) := by
  refine ⟨linked_root f i, fun j hj => ?_⟩
  rw [(linked_iff hf).mp hj]
  exact root_le hf j

theorem linked_root_iff (hf : Descending f) : Linked (root f) i j ↔ Linked f i j := by
  have hroot (k : Nat) : root (root f) k = root f k := by
    rw [← root_apply (root_le hf) k]
    exact root_of_fixed (root_of_fixed (root_fixed hf k))
  rw [linked_iff (root_le hf), linked_iff hf, hroot, hroot]

end Roots

section Joining

variable {f : Nat → Nat} {a b : Nat}

/-- The smallest equivalence that also links `a` with `b`. -/
def LinkedWith (f : Nat → Nat) (a b : Nat) : Nat → Nat → Prop :=
  Relation.EqvGen fun i j => f i = j ∨ i = a ∧ j = b

theorem LinkedWith.apply (i : Nat) : LinkedWith f a b i (f i) := .rel i (f i) (Or.inl rfl)

theorem LinkedWith.pair : LinkedWith f a b a b := .rel a b (Or.inr ⟨rfl, rfl⟩)

theorem LinkedWith.swap (h : LinkedWith f a b i j) : LinkedWith f b a i j := by
  refine eqvGen_of (fun i j hij => ?_) h
  rcases hij with rfl | ⟨rfl, rfl⟩
  · exact .rel _ _ (Or.inl rfl)
  · exact .symm _ _ (.rel _ _ (Or.inr ⟨rfl, rfl⟩))

theorem linkedWith_comm : LinkedWith f a b i j ↔ LinkedWith f b a i j :=
  ⟨LinkedWith.swap, LinkedWith.swap⟩

theorem linkedWith_of_eq (h : f a = f b) : LinkedWith f a b i j ↔ Linked f i j := by
  constructor
  · refine eqvGen_of fun i j hij => ?_
    rcases hij with rfl | ⟨rfl, rfl⟩
    · exact linked_apply i
    · refine .trans _ _ _ (linked_apply i) ?_
      rw [h]
      exact .symm _ _ (linked_apply j)
  · exact eqvGen_of fun i j hij => .rel i j (Or.inl hij)

theorem linkedWith_redirect (hne : f a ≠ f b) :
    LinkedWith (Function.update f b (f a)) a (f b) i j ↔ LinkedWith f a b i j := by
  have hab : a ≠ b := fun heq => hne (congrArg f heq)
  have hold {k : Nat} (hk : k ≠ b) : Function.update f b (f a) k = f k := Function.update_of_ne hk _ _
  have hnew : Function.update f b (f a) b = f a := Function.update_self _ _ _
  constructor
  · refine eqvGen_of fun i j hij => ?_
    rcases hij with hij | ⟨rfl, rfl⟩
    · by_cases hi : i = b
      · rw [hi, hnew] at hij
        rw [hi, ← hij]
        exact .trans _ _ _ (.symm _ _ LinkedWith.pair) (LinkedWith.apply a)
      · rw [hold hi] at hij
        rw [← hij]
        exact LinkedWith.apply i
    · exact .trans _ _ _ LinkedWith.pair (LinkedWith.apply b)
  · -- In the new forest `b` is linked with `f a`, as `a` is, and `a` with `f b`.
    have hb : LinkedWith (Function.update f b (f a)) a (f b) a b := by
      have ha := LinkedWith.apply (f := Function.update f b (f a)) (a := a) (b := f b) a
      have hb := LinkedWith.apply (f := Function.update f b (f a)) (a := a) (b := f b) b
      rw [hold hab] at ha
      rw [hnew] at hb
      exact .trans _ _ _ ha (.symm _ _ hb)
    refine eqvGen_of fun i j hij => ?_
    rcases hij with hij | ⟨rfl, rfl⟩
    · by_cases hi : i = b
      · rw [← hij, hi]
        exact .trans _ _ _ (.symm _ _ hb) LinkedWith.pair
      · rw [← hij, ← hold hi]
        exact LinkedWith.apply i
    · exact hb

theorem descending_redirect (hf : Descending f) (hlt : f a < f b) :
    Descending (Function.update f b (f a)) := by
  intro i
  by_cases hi : i = b
  · rw [hi, Function.update_self]
    exact Nat.le_trans (Nat.le_of_lt hlt) (hf b)
  · rw [Function.update_of_ne hi]
    exact hf i

/-! ## Where two paths meet -/

/-- The number is on the path of pointers from `a`. -/
def Above (f : Nat → Nat) (a x : Nat) : Prop := ∃ k, f^[k + 1] a = x

theorem above_iff : Above f a x ↔ x = f a ∨ Above f (f a) x := by
  constructor
  · rintro ⟨k, rfl⟩
    cases k with
    | zero => exact Or.inl rfl
    | succ k => exact Or.inr ⟨k, rfl⟩
  · rintro (rfl | ⟨k, rfl⟩)
    · exact ⟨0, rfl⟩
    · exact ⟨k + 1, rfl⟩

theorem above_apply : Above f a (f a) := ⟨0, rfl⟩

theorem Above.le (hf : Descending f) (h : Above f a x) : x ≤ f a := by
  obtain ⟨k, rfl⟩ := h
  induction k with
  | zero => exact Nat.le_refl _
  | succ k ih =>
    rw [Function.iterate_succ_apply']
    exact Nat.le_trans (hf _) ih

theorem above_fixed (h : f a = a) : Above f a x ↔ x = a := by
  constructor
  · rintro ⟨k, rfl⟩
    exact Function.iterate_fixed h _
  · rintro rfl
    exact ⟨0, h⟩

theorem above_update_of_ne {v : Nat} (ha : a ≠ b) (h : ∀ y, Above f a y → y ≠ b) :
    Above (Function.update f b v) a x ↔ Above f a x := by
  have hsame (k : Nat) : (Function.update f b v)^[k] a = f^[k] a := by
    induction k with
    | zero => rfl
    | succ k ih =>
      rw [Function.iterate_succ_apply', Function.iterate_succ_apply', ih]
      apply Function.update_of_ne
      cases k with
      | zero => exact ha
      | succ k => exact h _ ⟨k, rfl⟩
  unfold Above
  simp only [hsame]

/-- A number on the path from `a` that is no root is not on the path from `b`, and above its root. -/
def Apart (f : Nat → Nat) (a b : Nat) : Prop :=
  ∀ x, Above f a x → f x ≠ x → ¬Above f b x ∧ ∀ r, Above f b r → f r = r → r < x

/-- Two paths that meet at roots only. -/
def Unobstructed (f : Nat → Nat) (a b : Nat) : Prop := Apart f a b ∧ Apart f b a

theorem unobstructed_comm : Unobstructed f a b ↔ Unobstructed f b a := and_comm

theorem unobstructed_of_eq (h : f a = f b) :
    Unobstructed f a b ↔ f (f a) = f a := by
  constructor
  · intro hfree
    by_contra hroot
    exact (hfree.1 (f a) above_apply hroot).1 (h ▸ above_apply)
  · intro hroot
    have honly {c x : Nat} (hc : f c = f a) (hx : Above f c x) : f x = x := by
      rw [above_iff, hc, above_fixed hroot, or_self] at hx
      rw [hx]
      exact hroot
    refine ⟨fun x hx hne => absurd (honly rfl hx) hne, fun x hx hne => ?_⟩
    exact absurd (honly h.symm hx) hne

theorem unobstructed_redirect_inner (hf : Descending f) (hlt : f a < f b) (hb : f b < b) :
    Unobstructed (Function.update f b (f a)) a (f b) ↔ Unobstructed f a b := by
  have hab : a ≠ b := fun heq => absurd (congrArg f heq) (Nat.ne_of_lt hlt)
  have hA {x : Nat} (hx : Above f a x) : x < f b := Nat.lt_of_le_of_lt (hx.le hf) hlt
  have hB {x : Nat} (hx : Above f (f b) x) : x ≤ f b := Nat.le_trans (hx.le hf) (hf _)
  have hpathA {x : Nat} : Above (Function.update f b (f a)) a x ↔ Above f a x :=
    above_update_of_ne hab fun y hy => Nat.ne_of_lt ((hA hy).trans hb)
  have hpathB {x : Nat} : Above (Function.update f b (f a)) (f b) x ↔ Above f (f b) x :=
    above_update_of_ne (Nat.ne_of_lt hb) fun y hy => Nat.ne_of_lt (Nat.lt_of_le_of_lt (hB hy) hb)
  have hsame {x : Nat} (hx : x ≤ f b) : Function.update f b (f a) x = f x :=
    Function.update_of_ne (Nat.ne_of_lt (Nat.lt_of_le_of_lt hx hb)) _ _
  have hroots {r : Nat} (hr : Above f b r) (hfix : f r = r) : Above f (f b) r := by
    rcases above_iff.mp hr with rfl | hr
    · exact (above_fixed hfix).mpr rfl
    · exact hr
  unfold Unobstructed Apart
  simp only [hpathA, hpathB]
  constructor
  · rintro ⟨hfirst, hsecond⟩
    refine ⟨fun x hx hne => ?_, fun x hx hne => ?_⟩
    · obtain ⟨hnot, hbelow⟩ := hfirst x hx (by rwa [hsame (Nat.le_of_lt (hA hx))])
      refine ⟨?_, fun r hr hfix => ?_⟩
      · rw [above_iff]
        rintro (rfl | hx')
        · exact Nat.lt_irrefl _ (hA hx)
        · exact hnot hx'
      · have hr' := hroots hr hfix
        exact hbelow r hr' (by rwa [hsame (hB hr')])
    · rcases above_iff.mp hx with rfl | hx
      · exact ⟨fun hx' => Nat.lt_irrefl _ (hA hx'), fun r hr _ => hA hr⟩
      · obtain ⟨hnot, hbelow⟩ := hsecond x hx (by rwa [hsame (hB hx)])
        exact ⟨hnot, fun r hr hfix => hbelow r hr (by rwa [hsame (Nat.le_of_lt (hA hr))])⟩
  · rintro ⟨hfirst, hsecond⟩
    refine ⟨fun x hx hne => ?_, fun x hx hne => ?_⟩
    · rw [hsame (Nat.le_of_lt (hA hx))] at hne
      obtain ⟨hnot, hbelow⟩ := hfirst x hx hne
      refine ⟨fun hx' => hnot (above_iff.mpr (Or.inr hx')), fun r hr hfix => ?_⟩
      rw [hsame (hB hr)] at hfix
      exact hbelow r (above_iff.mpr (Or.inr hr)) hfix
    · rw [hsame (hB hx)] at hne
      obtain ⟨hnot, hbelow⟩ := hsecond x (above_iff.mpr (Or.inr hx)) hne
      refine ⟨hnot, fun r hr hfix => ?_⟩
      rw [hsame (Nat.le_of_lt (hA hr))] at hfix
      exact hbelow r hr hfix

theorem unobstructed_redirect_root (hlt : f a < f b) (hb : f b = b) :
    Unobstructed (Function.update f b (f a)) a b ↔ Unobstructed f a b := by
  have hab : a ≠ b := fun heq => absurd (congrArg f heq) (Nat.ne_of_lt hlt)
  have hne : f a ≠ b := Nat.ne_of_lt (hb ▸ hlt)
  have hold : Function.update f b (f a) a = f a := Function.update_of_ne hab _ _
  have hold' : Function.update f b (f a) (f a) = f (f a) := Function.update_of_ne hne _ _
  rw [unobstructed_of_eq (by rw [hold, Function.update_self]), hold, hold']
  constructor
  · intro hroot
    have honly {x : Nat} (hx : Above f a x) : f x = x := by
      rw [above_iff, above_fixed hroot, or_self] at hx
      rw [hx]
      exact hroot
    refine ⟨fun x hx hfix => absurd (honly hx) hfix, fun x hx hfix => ?_⟩
    rw [(above_fixed hb).mp hx] at hfix
    exact absurd hb hfix
  · intro hfree
    by_contra hroot
    have hbelow := (hfree.1 (f a) above_apply hroot).2 b ((above_fixed hb).mpr rfl) hb
    omega

theorem unobstructed_redirect (hf : Descending f) (hlt : f a < f b) :
    Unobstructed (Function.update f b (f a)) a (f b) ↔ Unobstructed f a b := by
  by_cases hb : f b = b
  · have hsame := unobstructed_redirect_root hlt hb
    rwa [hb]
  · exact unobstructed_redirect_inner hf hlt (Nat.lt_of_le_of_ne (hf b) hb)

end Joining

section Numbering

variable {f : Nat → Nat}

/-- The roots below `n`, in ascending order. -/
def roots (f : Nat → Nat) (n : Nat) : List Nat := (List.range n).filter fun i => f i = i

/-- The number of roots below `n`. -/
def rank (f : Nat → Nat) (n : Nat) : Nat := (roots f n).length

theorem roots_succ_of_fixed (h : f n = n) : roots f (n + 1) = roots f n ++ [n] := by
  rw [roots, List.range_succ, List.filter_append]
  simp [roots, h]

theorem roots_succ_of_ne (h : f n ≠ n) : roots f (n + 1) = roots f n := by
  rw [roots, List.range_succ, List.filter_append]
  simp [roots, h]

theorem rank_succ_of_fixed (h : f n = n) : rank f (n + 1) = rank f n + 1 := by
  rw [rank, roots_succ_of_fixed h, List.length_append, List.length_singleton, rank]

theorem rank_succ_of_ne (h : f n ≠ n) : rank f (n + 1) = rank f n := by
  rw [rank, roots_succ_of_ne h, rank]

theorem rank_le (n : Nat) : rank f n ≤ n := by
  have h := List.length_filter_le (fun i => decide (f i = i)) (List.range n)
  rwa [List.length_range] at h

theorem rank_mono {m : Nat} (h : m ≤ n) : rank f m ≤ rank f n := by
  induction n, h using Nat.le_induction with
  | base => exact Nat.le_refl _
  | succ n _ ih =>
    by_cases hfix : f n = n
    · rw [rank_succ_of_fixed hfix]
      exact Nat.le_succ_of_le ih
    · rw [rank_succ_of_ne hfix]
      exact ih

theorem rank_lt (hfix : f r = r) (h : r < n) : rank f r < rank f n := by
  have hsucc := rank_mono (f := f) (Nat.succ_le_of_lt h)
  rw [Nat.succ_eq_add_one, rank_succ_of_fixed hfix] at hsucc
  exact hsucc

theorem rank_inj {r' : Nat} (hr : f r = r) (hr' : f r' = r') (h : rank f r = rank f r') :
    r = r' := by
  rcases Nat.lt_trichotomy r r' with hlt | heq | hlt
  · exact absurd h (Nat.ne_of_lt (rank_lt hr hlt))
  · exact heq
  · exact absurd h (Nat.ne_of_gt (rank_lt hr' hlt))

theorem roots_get_rank (hfix : f r = r) (h : r < n) : (roots f n)[rank f r]? = some r := by
  induction n with
  | zero => exact absurd h (Nat.not_lt_zero r)
  | succ n ih =>
    rcases Nat.lt_succ_iff_lt_or_eq.mp h with hlt | rfl
    · by_cases hn : f n = n
      · rw [roots_succ_of_fixed hn, List.getElem?_append_left (rank_lt hfix hlt)]
        exact ih hlt
      · rw [roots_succ_of_ne hn]
        exact ih hlt
    · rw [roots_succ_of_fixed hfix, rank, List.getElem?_concat_length]

theorem exists_root_of_lt_rank {c : Nat} (h : c < rank f n) : ∃ r < n, f r = r ∧ rank f r = c := by
  induction n with
  | zero => exact absurd h (Nat.not_lt_zero c)
  | succ n ih =>
    by_cases hn : f n = n
    · rw [rank_succ_of_fixed hn] at h
      rcases Nat.lt_succ_iff_lt_or_eq.mp h with hlt | rfl
      · obtain ⟨r, hr, hfix, hrank⟩ := ih hlt
        exact ⟨r, Nat.lt_succ_of_lt hr, hfix, hrank⟩
      · exact ⟨n, Nat.lt_succ_self n, hn, rfl⟩
    · rw [rank_succ_of_ne hn] at h
      obtain ⟨r, hr, hfix, hrank⟩ := ih h
      exact ⟨r, Nat.lt_succ_of_lt hr, hfix, hrank⟩

end Numbering

end SmlnjLlvm.DescendingForest
