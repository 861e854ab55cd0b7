import Mathlib.Data.BitVec

/-!
# Words compared bit by bit

A word is below another if all its bits are set there as well. Sums carry more
when their terms get larger in this order, and the carry into a position depends
on the lower bits only.
-/

namespace SmlnjLlvm.BitOrder

variable {w : Nat}

def Below (x y : BitVec w) : Prop := ∀ i, x.getLsbD i = true → y.getLsbD i = true

theorem Below.refl (x : BitVec w) : Below x x := fun _ h => h

theorem Below.trans {x y z : BitVec w} (hxy : Below x y) (hyz : Below y z) : Below x z :=
  fun i h => hyz i (hxy i h)

theorem below_of_lt {x y : BitVec w}
    (h : ∀ i < w, x.getLsbD i = true → y.getLsbD i = true) : Below x y :=
  fun i hi => h i (BitVec.lt_of_getLsbD hi) hi

theorem below_iff_and {x y : BitVec w} : Below x y ↔ x &&& y = x := by
  constructor
  · intro h
    apply BitVec.eq_of_getLsbD_eq
    intro i _
    rw [BitVec.getLsbD_and]
    cases hx : x.getLsbD i
    · rfl
    · rw [h i hx]
      rfl
  · intro h i hi
    rw [← h, BitVec.getLsbD_and] at hi
    exact (Bool.and_eq_true_iff.mp hi).2

theorem Below.toNat_le {x y : BitVec w} (h : Below x y) : x.toNat ≤ y.toNat := by
  rw [← below_iff_and.mp h, BitVec.toNat_and]
  exact Nat.and_le_right

theorem Below.setWidth {x y : BitVec w} (h : Below x y) (v : Nat) :
    Below (x.setWidth v) (y.setWidth v) := by
  intro i hi
  rw [BitVec.getLsbD_setWidth, Bool.and_eq_true] at hi ⊢
  exact ⟨hi.1, h i hi.2⟩

theorem Below.mod_le {x y : BitVec w} (h : Below x y) (k : Nat) :
    x.toNat % 2 ^ k ≤ y.toNat % 2 ^ k := by
  have hle := (h.setWidth k).toNat_le
  rwa [BitVec.toNat_setWidth, BitVec.toNat_setWidth] at hle

theorem below_or {x y z : BitVec w} (hx : Below x z) (hy : Below y z) : Below (x ||| y) z := by
  intro i hi
  rw [BitVec.getLsbD_or, Bool.or_eq_true] at hi
  exact hi.elim (hx i) (hy i)

theorem carry_mono {x x' y y' : BitVec w} {c c' : Bool} (hx : Below x x') (hy : Below y y')
    (hc : c = true → c' = true) (i : Nat) (h : BitVec.carry i x y c = true) :
    BitVec.carry i x' y' c' = true := by
  induction i with
  | zero =>
    rw [BitVec.carry_zero] at h ⊢
    exact hc h
  | succ i ih =>
    rw [BitVec.carry_succ] at h ⊢
    have hxi := hx i
    have hyi := hy i
    cases hxv : x.getLsbD i <;> cases hyv : y.getLsbD i <;> cases hcv : BitVec.carry i x y c <;>
      simp_all [Bool.atLeastTwo]

theorem carry_congr {x x' : BitVec w} (y : BitVec w) (c : Bool) {i : Nat}
    (h : ∀ j < i, x.getLsbD j = x'.getLsbD j) : BitVec.carry i x y c = BitVec.carry i x' y c := by
  induction i with
  | zero => rw [BitVec.carry_zero, BitVec.carry_zero]
  | succ i ih =>
    rw [BitVec.carry_succ, BitVec.carry_succ, h i (Nat.lt_succ_self i),
      ih fun j hj => h j (Nat.lt_succ_of_lt hj)]

end SmlnjLlvm.BitOrder
