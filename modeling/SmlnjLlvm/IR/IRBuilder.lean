import SmlnjLlvm.Library.Outcome
import SmlnjLlvm.Support.MathExtras

/-!
# What the instructions of an `IRBuilder` compute

A value is known to the builder as a constant or not, and has a word when the
code runs, unless it is poison. The builder folds an operation on constants and
inserts an instruction otherwise. Code that branches on poison is undefined.
-/

namespace SmlnjLlvm.IR

open SmlnjLlvm

variable {w v : Nat}

/-- `Value`: what the builder knows about an operand, and its word at run time. -/
structure Value (w : Nat) where
  isConstant : Bool
  /-- There is no word when the value is poison. -/
  word : Option (BitVec w)
  deriving DecidableEq, Repr

/-- The code branches on poison. -/
inductive Undefined where
  | poisonBranch
  deriving DecidableEq, Repr

abbrev Choices := Nat → Nat

/-- The builder's assertions and the code it emits. A loop that takes more turns than it may, and
an assertion that fails, have no outcome. -/
abbrev Exec := Call Choices Undefined

namespace IRBuilder

def getIntN (w n : Nat) : Value w := ⟨true, some (BitVec.ofNat w n)⟩

def getSigned (w : Nat) (n : Int) : Value w := ⟨true, some (BitVec.ofInt w n)⟩

def getTrue : Value 1 := getIntN 1 1

def binary {u : Nat} (f : BitVec w → BitVec v → Option (BitVec u)) (LHS : Value w)
    (RHS : Value v) : Value u :=
  ⟨LHS.isConstant && RHS.isConstant, LHS.word.bind fun x => RHS.word.bind (f x)⟩

def CreateAdd : Value w → Value w → Value w := binary fun x y => some (x + y)

def CreateSub : Value w → Value w → Value w := binary fun x y => some (x - y)

def CreateMul : Value w → Value w → Value w := binary fun x y => some (x * y)

def CreateAnd : Value w → Value w → Value w := binary fun x y => some (x &&& y)

def CreateOr : Value w → Value w → Value w := binary fun x y => some (x ||| y)

def CreateXor : Value w → Value w → Value w := binary fun x y => some (x ^^^ y)

def CreateShl : Value w → Value w → Value w :=
  binary fun x y => if y.toNat < w then some (x <<< y.toNat) else none

def CreateLShr : Value w → Value w → Value w :=
  binary fun x y => if y.toNat < w then some (x >>> y.toNat) else none

def CreateAShr : Value w → Value w → Value w :=
  binary fun x y => if y.toNat < w then some (x.sshiftRight y.toNat) else none

def CreateICmpEQ : Value w → Value w → Value 1 :=
  binary fun x y => some (BitVec.ofBool (x == y))

def CreateICmpUGT : Value w → Value w → Value 1 :=
  binary fun x y => some (BitVec.ofBool (y.ult x))

def CreateSelect (C : Value 1) (True False : Value w) : Value w :=
  ⟨C.isConstant && True.isConstant && False.isConstant,
    C.word.bind fun c => if c = 1#1 then True.word else False.word⟩

def CreateLogicalOr (Cond1 Cond2 : Value 1) : Value 1 := CreateSelect Cond1 getTrue Cond2

def CreateCTLZ (V : Value w) : Value w :=
  ⟨false, V.word.bind fun x => if x = 0 then none else some (BitVec.ofNat w (Support.countl_zero x))⟩

def CreateSExt (V : Value w) (u : Nat) : Value u := ⟨V.isConstant, V.word.map (·.signExtend u)⟩

def CreateZExt (V : Value w) (u : Nat) : Value u := ⟨V.isConstant, V.word.map (·.setWidth u)⟩

def CreateTrunc (V : Value w) (u : Nat) : Value u := ⟨V.isConstant, V.word.map (·.setWidth u)⟩

def CreateFreeze (V : Value w) : Exec (Value w) :=
  match V.word with
  | some x => pure ⟨false, some x⟩
  | none => do
    let choices ← get
    set fun n => choices (n + 1)
    pure ⟨false, some (BitVec.ofNat w (choices 0))⟩

def CreateCondBr (Cond : Value 1) : Exec Bool :=
  match Cond.word with
  | some c => pure (decide (c = 1#1))
  | none => Call.fail .poisonBranch

def phi (incoming : Value w) : Value w := ⟨false, incoming.word⟩

end IRBuilder

/-! ## Values that are not poison -/

namespace Value

def Is (V : Value w) (x : BitVec w) : Prop := V.word = some x

end Value

namespace IRBuilder

open Value

theorem is_getIntN (w n : Nat) : (getIntN w n).Is (BitVec.ofNat w n) := rfl

theorem is_getSigned (w : Nat) (n : Int) : (getSigned w n).Is (BitVec.ofInt w n) := rfl

theorem is_phi {V : Value w} {x : BitVec w} (h : V.Is x) : (phi V).Is x := h

section Operands

variable {A B : Value w} {x y : BitVec w}

theorem is_binary {u : Nat} {f : BitVec w → BitVec w → Option (BitVec u)} {z : BitVec u}
    (hA : A.Is x) (hB : B.Is y) (hf : f x y = some z) : (binary f A B).Is z := by
  unfold Value.Is at hA hB ⊢
  simp only [binary, hA, hB, Option.bind_some, hf]

theorem is_add (hA : A.Is x) (hB : B.Is y) : (CreateAdd A B).Is (x + y) := is_binary hA hB rfl

theorem is_sub (hA : A.Is x) (hB : B.Is y) : (CreateSub A B).Is (x - y) := is_binary hA hB rfl

theorem is_mul (hA : A.Is x) (hB : B.Is y) : (CreateMul A B).Is (x * y) := is_binary hA hB rfl

theorem is_and (hA : A.Is x) (hB : B.Is y) : (CreateAnd A B).Is (x &&& y) := is_binary hA hB rfl

theorem is_or (hA : A.Is x) (hB : B.Is y) : (CreateOr A B).Is (x ||| y) := is_binary hA hB rfl

theorem is_xor (hA : A.Is x) (hB : B.Is y) : (CreateXor A B).Is (x ^^^ y) := is_binary hA hB rfl

theorem is_shl (hA : A.Is x) (hB : B.Is y) (hy : y.toNat < w) :
    (CreateShl A B).Is (x <<< y.toNat) :=
  is_binary hA hB (if_pos hy)

theorem is_lshr (hA : A.Is x) (hB : B.Is y) (hy : y.toNat < w) :
    (CreateLShr A B).Is (x >>> y.toNat) :=
  is_binary hA hB (if_pos hy)

theorem is_ashr (hA : A.Is x) (hB : B.Is y) (hy : y.toNat < w) :
    (CreateAShr A B).Is (x.sshiftRight y.toNat) :=
  is_binary hA hB (if_pos hy)

theorem is_icmpEQ (hA : A.Is x) (hB : B.Is y) :
    (CreateICmpEQ A B).Is (BitVec.ofBool (x == y)) :=
  is_binary hA hB rfl

theorem is_icmpUGT (hA : A.Is x) (hB : B.Is y) :
    (CreateICmpUGT A B).Is (BitVec.ofBool (y.ult x)) :=
  is_binary hA hB rfl

theorem is_ctlz (hA : A.Is x) (hx : x ≠ 0) :
    (CreateCTLZ A).Is (BitVec.ofNat w (Support.countl_zero x)) := by
  unfold Value.Is at hA ⊢
  simp only [CreateCTLZ, hA, Option.bind_some, if_neg hx]

theorem is_sext (hA : A.Is x) (u : Nat) : (CreateSExt A u).Is (x.signExtend u) := by
  unfold Value.Is at hA ⊢
  simp only [CreateSExt, hA, Option.map_some]

theorem is_zext (hA : A.Is x) (u : Nat) : (CreateZExt A u).Is (x.setWidth u) := by
  unfold Value.Is at hA ⊢
  simp only [CreateZExt, hA, Option.map_some]

theorem is_trunc (hA : A.Is x) (u : Nat) : (CreateTrunc A u).Is (x.setWidth u) := by
  unfold Value.Is at hA ⊢
  simp only [CreateTrunc, hA, Option.map_some]

theorem freeze_of_is (hA : A.Is x) : CreateFreeze A = pure ⟨false, some x⟩ := by
  unfold Value.Is at hA
  simp only [CreateFreeze, hA]

end Operands

section Conditions

variable {C D : Value 1} {A B : Value w} {b c : Bool} {x : BitVec w}

theorem ofBool_eq_one : BitVec.ofBool b = 1#1 ↔ b = true := by
  cases b <;> decide

theorem is_select_true (hC : C.Is (BitVec.ofBool true)) (hA : A.Is x) :
    (CreateSelect C A B).Is x := by
  unfold Value.Is at hC hA ⊢
  simp only [CreateSelect, hC, Option.bind_some, ofBool_eq_one, if_true, hA]

theorem is_select_false (hC : C.Is (BitVec.ofBool false)) (hB : B.Is x) :
    (CreateSelect C A B).Is x := by
  unfold Value.Is at hC hB ⊢
  simp only [CreateSelect, hC, Option.bind_some, ofBool_eq_one, Bool.false_eq_true, if_false, hB]

theorem is_logicalOr_true (hC : C.Is (BitVec.ofBool true)) :
    (CreateLogicalOr C D).Is (BitVec.ofBool true) :=
  is_select_true hC rfl

theorem is_logicalOr_false (hC : C.Is (BitVec.ofBool false)) (hD : D.Is (BitVec.ofBool b)) :
    (CreateLogicalOr C D).Is (BitVec.ofBool b) :=
  is_select_false hC hD

theorem is_or_bool (hC : C.Is (BitVec.ofBool b)) (hD : D.Is (BitVec.ofBool c)) :
    (CreateOr C D).Is (BitVec.ofBool (b || c)) := by
  rw [← BitVec.ofBool_or_ofBool]
  exact is_or hC hD

theorem condBr_of_is (hC : C.Is (BitVec.ofBool b)) : CreateCondBr C = pure b := by
  unfold Value.Is at hC
  simp only [CreateCondBr, hC, ofBool_eq_one, Bool.decide_eq_true]

end Conditions

end IRBuilder

end SmlnjLlvm.IR
