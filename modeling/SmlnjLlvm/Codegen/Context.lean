import SmlnjLlvm.Codegen.Arguments
import SmlnjLlvm.Library.PartialState
import SmlnjLlvm.Library.Threading

/-!
# The code-generation context

The state of the LLVM builder for one function: its basic blocks, the insertion
point, the values of the CMachine registers and the maps of the current
cluster. A failed assertion or a null dereference stops code generation.
-/

namespace SmlnjLlvm.Codegen.Builder

open PartialState

abbrev Lvar := Int

abbrev Block := Nat

/-- A conversion names its operand; the other instructions are numbered. -/
inductive Value where
  | arg (i : Nat) (ty : LlvmTy)
  | phi (bb : Block) (i : Nat) (ty : LlvmTy)
  | inst (id : Nat) (ty : LlvmTy)
  | const (n : Int) (ty : LlvmTy)
  | undef (ty : LlvmTy)
  | label (lab : Lvar)
  /-- The distance of a label from the current function. -/
  | labelDiff (lab : Lvar)
  | cast (v : Value) (ty : LlvmTy)
  deriving DecidableEq, Repr

namespace Value

def ty : Value → LlvmTy
  | arg _ ty => ty
  | phi _ _ ty => ty
  | inst _ ty => ty
  | const _ ty => ty
  | undef ty => ty
  | label _ => mlValueTy
  | labelDiff _ => mlValueTy
  | cast _ ty => ty

def coerce (v : Value) (tgtTy : LlvmTy) : Value := if v.ty = tgtTy then v else v.cast tgtTy

@[simp] theorem coerce_of_eq {v : Value} {tgtTy : LlvmTy} (h : v.ty = tgtTy) :
    v.coerce tgtTy = v := if_pos h

end Value

inductive BinOp where
  | add | sub | mul
  | sdiv | udiv | srem | urem
  | shl | ashr | lshr
  | or | xor | and
  | fadd | fsub | fmul | fdiv | frem
  deriving DecidableEq, Repr

inductive CastOp where
  | sext | zext | trunc | siToFP | fpToSI | bitCast
  deriving DecidableEq, Repr

inductive ICmpPred where
  | eq | ne | sgt | ugt | sge | uge | slt | ult | sle | ule
  deriving DecidableEq, Repr

inductive FCmpPred where
  | oeq | une | one | ord | ogt | oge | ugt | uge | olt | ole | ult | ule | ueq
  deriving DecidableEq, Repr

inductive Intrinsic where
  | saddWithOverflow | ssubWithOverflow | smulWithOverflow
  | ctpop | ctlz | cttz | fshl | fshr
  | fma | fabs | sqrt | copysign
  deriving DecidableEq, Repr

inductive Opcode where
  | binop (op : BinOp)
  | fneg
  | cast (op : CastOp)
  | icmp (pred : ICmpPred)
  | fcmp (pred : FCmpPred)
  | gep (elemTy : LlvmTy)
  | load (align : Nat)
  | store (align : Nat)
  | intrinsic (fn : Intrinsic) (ty : LlvmTy)
  /-- A field of the aggregate that an instruction produced. -/
  | extractValue (agg : Nat) (i : Nat)
  | readSP
  | call (fn : Value)
  deriving DecidableEq, Repr

/-- An instruction; `ty` is absent for stores, aggregates and truth values. -/
structure Inst where
  id : Nat
  op : Opcode
  args : List Value
  ty : Option LlvmTy
  deriving DecidableEq, Repr

structure Phi where
  ty : LlvmTy
  incoming : List (Value × Block)
  deriving DecidableEq, Repr

inductive Terminator where
  | br (dst : Block)
  | condBr (cond : Nat) (t f : Block)
  | switch (v : Value) (dflt : Block) (cases : List Block)
  | retVoid
  | unreachable
  deriving DecidableEq, Repr

def Terminator.succs : Terminator → List Block
  | br dst => [dst]
  | condBr _ t f => [t, f]
  | switch _ dflt cases => dflt :: cases
  | retVoid => []
  | unreachable => []

/--
A basic block. The assignments to CMachine registers that are held in values
leave no instruction; `assigns` records them in the order they are made.
-/
structure BasicBlock where
  phis : List Phi
  insts : List Inst
  assigns : List (CMRegId × Value)
  terms : List Terminator
  deriving DecidableEq, Repr

def BasicBlock.empty : BasicBlock := ⟨[], [], [], []⟩

/-- What a jump reads of a fragment that has been initialized. -/
structure FragRef where
  kind : FragKind
  bb : Block
  deriving DecidableEq, Repr

/-- What a call reads of another cluster. -/
structure ClusterRef where
  kind : FragKind
  fnTy : List LlvmTy

/-- What is fixed while code is generated for a cluster. -/
structure Env where
  target : TargetInfo
  attrs : Attrs
  /-- The parameter types of the current function. -/
  fnTy : List LlvmTy
  lookupCluster : Lvar → Option ClusterRef

structure Ctx where
  blocks : Block → BasicBlock
  numBlocks : Nat
  /-- The insertion point. -/
  cur : Block
  /-- The number of instructions so far. -/
  fresh : Nat
  regState : CMRegState Value
  vMap : Lvar → Option Value
  fragMap : Lvar → Option FragRef
  overflowBB : Option Block

namespace Ctx

def modifyBlock (s : Ctx) (b : Block) (f : BasicBlock → BasicBlock) : Ctx :=
  { s with blocks := Function.update s.blocks b (f (s.blocks b)) }

def succs (s : Ctx) (b : Block) : List Block := (s.blocks b).terms.flatMap Terminator.succs

end Ctx

abbrev Gen := StateT Ctx Option

def newBB : Gen Block := fun s => some (s.numBlocks, { s with numBlocks := s.numBlocks + 1 })

def setInsertPoint (bb : Block) : Gen Unit := fun s => some ((), { s with cur := bb })

def getCurBB : Gen Block := fun s => some (s.cur, s)

def insert (op : Opcode) (args : List Value) (ty : Option LlvmTy) : Gen Nat := fun s =>
  some (s.fresh, { s.modifyBlock s.cur fun blk =>
    { blk with insts := blk.insts ++ [⟨s.fresh, op, args, ty⟩] } with fresh := s.fresh + 1 })

def emit (op : Opcode) (args : List Value) (ty : LlvmTy) : Gen Value := do
  let id ← insert op args (some ty)
  pure (.inst id ty)

def terminate (t : Terminator) : Gen Unit := fun s =>
  some ((), s.modifyBlock s.cur fun blk => { blk with terms := blk.terms ++ [t] })

def createPHI (ty : LlvmTy) : Gen Unit := fun s =>
  some ((), s.modifyBlock s.cur fun blk => { blk with phis := blk.phis ++ [⟨ty, []⟩] })

def paramTy (bb : Block) (i : Nat) : Gen LlvmTy := fun s =>
  (s.blocks bb).phis[i]?.map fun phi => (phi.ty, s)

def addIncoming (bb : Block) (i : Nat) (v : Value) (src : Block) : Gen Unit := fun s =>
  match (s.blocks bb).phis[i]? with
  | none => none
  | some phi =>
    if v.ty = phi.ty then
      some ((), s.modifyBlock bb fun blk =>
        { blk with phis := blk.phis.set i { phi with incoming := phi.incoming ++ [(v, src)] } })
    else none

def insertVal (lv : Lvar) (v : Value) : Gen Unit := fun s =>
  some ((), match s.vMap lv with
    | none => { s with vMap := Function.update s.vMap lv (some v) }
    | some _ => s)

def lookupVal (lv : Lvar) : Gen Value := fun s => (s.vMap lv).map fun v => (v, s)

def insertFrag (lab : Lvar) (frag : FragRef) : Gen Unit := fun s =>
  some ((), match s.fragMap lab with
    | none => { s with fragMap := Function.update s.fragMap lab (some frag) }
    | some _ => s)

def lookupFrag (lab : Lvar) : Gen FragRef := fun s => (s.fragMap lab).map fun frag => (frag, s)

def beginFrag : Gen Unit := fun s => some ((), { s with vMap := fun _ => none })

def ofOption {α : Type} (o : Option α) : Gen α := fun s => o.map fun a => (a, s)

def require (p : Bool) : Gen Unit := ofOption (if p then some () else none)

section Instructions

variable (env : Env)

def asPtr (v : Value) : Gen Value :=
  if v.ty.isPointerTy then pure v
  else if v.ty.isIntegerTy then pure (v.cast .ptr)
  else failure

def asMLValue (v : Value) : Gen Value := asPtr v

def asInt (v : Value) : Value := if v.ty.isPointerTy then v.cast env.target.intTy else v

def asIntSz (sz : Nat) (v : Value) : Value := if v.ty = mlValueTy then v.cast (iType sz) else v

def uConst (n : Int) : Value := .const n env.target.intTy

def i32Const (n : Int) : Value := .const n .i32

def castTy (srcTy tgtTy : LlvmTy) (v : Value) : Gen Value :=
  if tgtTy.isPointerTy then pure (v.cast tgtTy)
  else if tgtTy.isIntegerTy && srcTy.isPointerTy then pure (v.cast tgtTy)
  else failure

def createGEP (base idx : Value) : Gen Value := emit (.gep mlValueTy) [base, idx] .ptr

def createElemGEP (elemTy : LlvmTy) (base idx : Value) : Gen Value := do
  let base ← asPtr base
  emit (.gep elemTy) [base, idx] .ptr

def createLoad (ty : LlvmTy) (adr : Value) (align : Nat) : Gen Value := emit (.load align) [adr] ty

def createStore (v adr : Value) (align : Nat) : Gen Unit := do
  let _ ← insert (.store align) [v, adr] none

def createStoreML (v adr : Value) : Gen Unit := do
  let v ← asMLValue v
  let adr ← asPtr adr
  createStore v adr env.target.wordSzB

def createStoreInt (v adr : Value) : Gen Unit := do
  let adr ← asPtr adr
  createStore v adr env.target.wordSzB

def createBinOp (op : BinOp) (a b : Value) : Gen Value :=
  emit (.binop op) [asInt env a, asInt env b] (asInt env a).ty

def createICmp (pred : ICmpPred) (a b : Value) : Gen Nat :=
  insert (.icmp pred) [asInt env a, asInt env b] none

def stkAddr (offset : Nat) : Gen Value := do
  let sp ← emit .readSP [] env.target.intTy
  let adr ← createBinOp env .add sp (.const offset env.target.intTy)
  pure (adr.cast .ptr)

def loadFromStack (offset : Nat) : Gen Value := do
  let adr ← stkAddr env offset
  createLoad mlValueTy adr env.target.wordSzB

def mlReg (r : CMRegId) : Gen Value := do
  let s ← get
  match s.regState.get r with
  | none => loadFromStack env (env.target.stkOffset r)
  | some v => pure v

def assignReg (r : CMRegId) (v : Value) : Gen Unit := fun s =>
  some ((), { s.modifyBlock s.cur fun blk => { blk with assigns := blk.assigns ++ [(r, v)] } with
    regState := s.regState.set r (some v) })

def setMLReg (r : CMRegId) (v : Value) : Gen Unit := do
  let s ← get
  match s.regState.get r with
  | none => do
      let adr ← stkAddr env (env.target.stkOffset r)
      createStore v adr env.target.wordSzB
  | some _ => assignReg r v

def saveSMLRegState : Gen (CMRegState Value) := fun s => some (s.regState, s)

def restoreSMLRegState (cache : CMRegState Value) : Gen Unit := fun s =>
  some ((), { s with regState := s.regState.copyFrom cache })

def createArgList (kind : FragKind) : Gen (List Value) := fun s =>
  (createArgs env.target env.attrs kind s.regState (.undef mlValueTy)).map fun args => (args, s)

def getArg (i : Nat) : Option Value := env.fnTy[i]?.map fun ty => .arg i ty

def getPhi (s : Ctx) (bb : Block) (i : Nat) : Option Value :=
  (s.blocks bb).phis[i]?.map fun phi => .phi bb i phi.ty

end Instructions

end SmlnjLlvm.Codegen.Builder
