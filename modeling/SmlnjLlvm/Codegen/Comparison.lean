import SmlnjLlvm.Codegen.Prim
import SmlnjLlvm.IR.ICmpRegions

/-!
# The predicates of conditional branches

The predicate of a comparison is read from a table by the number of the operator.
Integer comparisons have two rows for each operator, the signed one first. The
tables are compared here with the relations that the operators name.
-/

namespace SmlnjLlvm.Codegen.Builder

open PartialState CmpInst

def CmpOp.code : CmpOp → Nat
  | gt => 1
  | gte => 2
  | lt => 3
  | lte => 4
  | eql => 5
  | neq => 6

def FCmpOp.code : FCmpOp → Nat
  | eq => 1
  | ulg => 2
  | un => 3
  | leg => 4
  | gt => 5
  | ge => 6
  | ugt => 7
  | uge => 8
  | lt => 9
  | le => 10
  | ult => 11
  | ule => 12
  | lg => 13
  | ue => 14

def ICmpMap : List ICmpPred :=
  [.sgt, .ugt, .sge, .uge, .slt, .ult, .sle, .ule, .eq, .eq, .ne, .ne]

def FCmpMap : List FCmpPred :=
  [.oeq, .une, .one, .ord, .ogt, .oge, .ugt, .uge, .olt, .ole, .ult, .ule, .one, .ueq]

def CMP.predicate (oper : CmpOp) (signed : Bool) : Option ICmpPred :=
  let idx := 2 * (oper.code - 1)
  ICmpMap[if signed then idx else idx + 1]?

def FCMP.predicate (oper : FCmpOp) : Option FCmpPred := FCmpMap[oper.code - 1]?

def CMP.codegen (env : Env) (oper : CmpOp) (signed : Bool) (sz : Nat) (args : List Value) :
    Gen Nat := do
  let a ← operand args 0
  let b ← operand args 1
  let pred ← ofOption (CMP.predicate oper signed)
  createICmp env pred (asIntSz sz a) (asIntSz sz b)

def FCMP.codegen (oper : FCmpOp) (args : List Value) : Gen Nat := do
  let a ← operand args 0
  let b ← operand args 1
  let pred ← ofOption (FCMP.predicate oper)
  insert (.fcmp pred) [a, b] none

def ICmpPred.toPredicate : ICmpPred → Predicate
  | eq => .ICMP_EQ
  | ne => .ICMP_NE
  | sgt => .ICMP_SGT
  | ugt => .ICMP_UGT
  | sge => .ICMP_SGE
  | uge => .ICMP_UGE
  | slt => .ICMP_SLT
  | ult => .ICMP_ULT
  | sle => .ICMP_SLE
  | ule => .ICMP_ULE

/-- How two floating-point operands compare. -/
inductive FloatOrder where
  | less | equal | greater | unordered
  deriving DecidableEq, Repr

def FCmpPred.code : FCmpPred → Nat
  | oeq => 1
  | ogt => 2
  | oge => 3
  | olt => 4
  | ole => 5
  | one => 6
  | ord => 7
  | ueq => 9
  | ugt => 10
  | uge => 11
  | ult => 12
  | ule => 13
  | une => 14

def FloatOrder.bit : FloatOrder → Nat
  | equal => 0
  | greater => 1
  | less => 2
  | unordered => 3

def FCmpPred.holds (pred : FCmpPred) (order : FloatOrder) : Bool := pred.code.testBit order.bit

def CmpOp.Relation {w : Nat} (oper : CmpOp) (signed : Bool) (a b : BitVec w) : Prop :=
  match oper with
  | gt => if signed then b.toInt < a.toInt else b.toNat < a.toNat
  | gte => if signed then b.toInt ≤ a.toInt else b.toNat ≤ a.toNat
  | lt => if signed then a.toInt < b.toInt else a.toNat < b.toNat
  | lte => if signed then a.toInt ≤ b.toInt else a.toNat ≤ b.toNat
  | eql => a = b
  | neq => a ≠ b

def FloatOrder.sign : FloatOrder → Char
  | less => '<'
  | equal => '='
  | greater => '>'
  | unordered => '?'

def FCmpOp.signs : FCmpOp → List Char
  | eq => ['=']
  | ulg => ['?', '<', '>']
  | un => ['?']
  | leg => ['<', '=', '>']
  | gt => ['>']
  | ge => ['>', '=']
  | ugt => ['?', '>']
  | uge => ['?', '>', '=']
  | lt => ['<']
  | le => ['<', '=']
  | ult => ['?', '<']
  | ule => ['?', '<', '=']
  | lg => ['<', '>']
  | ue => ['?', '=']

def FCmpOp.Relation (oper : FCmpOp) (order : FloatOrder) : Prop := order.sign ∈ oper.signs

instance (oper : FCmpOp) (order : FloatOrder) : Decidable (oper.Relation order) :=
  inferInstanceAs (Decidable (order.sign ∈ oper.signs))

theorem CMP.predicate_eq (oper : CmpOp) (signed : Bool) :
    CMP.predicate oper signed = some (oper.pred signed) := by
  cases oper <;> cases signed <;> rfl

theorem FCMP.predicate_eq (oper : FCmpOp) : FCMP.predicate oper = some oper.pred := by
  cases oper <;> rfl

theorem compare_iff_relation {w : Nat} (oper : CmpOp) (signed : Bool) (a b : BitVec w) :
    CmpInst.compare a b (oper.pred signed).toPredicate = true ↔ oper.Relation signed a b := by
  cases oper <;> cases signed <;>
    simp [CmpOp.pred, ICmpPred.toPredicate, CmpInst.compare, CmpOp.Relation, BitVec.ult,
      BitVec.ule, BitVec.slt, BitVec.sle]

theorem holds_iff_relation (oper : FCmpOp) (order : FloatOrder) :
    (oper.pred.holds order = true ↔ oper.Relation order) ↔ oper ≠ .un ∨ order = .equal := by
  cases oper <;> cases order <;> decide

def CMP.Computes (oper : CmpOp) (signed : Bool) {sz : Nat} (a b : BitVec sz) : Prop :=
  ∃ pred, CMP.predicate oper signed = some pred ∧
    (CmpInst.compare a b pred.toPredicate = true ↔ oper.Relation signed a b)

/-- The selected predicate of a floating-point comparison holds just where the relation does. -/
def FCMP.Computes (oper : FCmpOp) (order : FloatOrder) : Prop :=
  ∃ pred, FCMP.predicate oper = some pred ∧ (pred.holds order = true ↔ oper.Relation order)

theorem CMP.computes (oper : CmpOp) (signed : Bool) {sz : Nat} (a b : BitVec sz) :
    CMP.Computes oper signed a b :=
  ⟨oper.pred signed, CMP.predicate_eq oper signed, compare_iff_relation oper signed a b⟩

theorem FCMP.computes_iff (oper : FCmpOp) (order : FloatOrder) :
    FCMP.Computes oper order ↔ oper ≠ .un ∨ order = .equal := by
  rw [← holds_iff_relation]
  unfold FCMP.Computes
  rw [FCMP.predicate_eq]
  constructor
  · rintro ⟨pred, hpred, hiff⟩
    cases hpred
    exact hiff
  · intro hiff
    exact ⟨oper.pred, rfl, hiff⟩

/-- Every integer comparison computes its relation, and every floating-point one but `F_UN`. -/
theorem branches_compute_relation (oper : CmpOp) (signed : Bool) (sz : Nat) (foper : FCmpOp)
    (order : FloatOrder) :
    (∀ a b : BitVec sz, CMP.Computes oper signed a b) ∧
      (FCMP.Computes foper order ↔ foper ≠ .un ∨ order = .equal) :=
  ⟨CMP.computes oper signed, FCMP.computes_iff foper order⟩

/-- `F_UN` is false of unordered operands and true of a pair in ascending order. -/
theorem un_selects_one :
    FCMP.predicate .un = some .one ∧ FCmpPred.one.holds .unordered = false ∧
      FCmpOp.un.Relation .unordered ∧ FCmpPred.one.holds .less = true ∧
      ¬FCmpOp.un.Relation .less := by
  decide

end SmlnjLlvm.Codegen.Builder
