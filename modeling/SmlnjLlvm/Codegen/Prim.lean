import SmlnjLlvm.Codegen.RawRecord
import SmlnjLlvm.Codegen.Straight

/-!
# Code generation for primitive operations

Operand lists are read by position, as vectors are; a missing operand stops
code generation. All of these operations but trapping arithmetic are
straight-line code.
-/

namespace SmlnjLlvm.Codegen.Builder

open PartialState

inductive Alloc where
  | special
  | record (desc : Nat)
  | rawRecord (desc : Nat) (fields : List RawTy)
  | rawAlloc (desc : Option Nat) (align len : Nat)

inductive ArithOp where
  | iadd | isub | imul | idiv | irem
  deriving DecidableEq, Repr

inductive Arith where
  | arith (oper : ArithOp) (sz : Nat)
  | floatToInt (toSz : Nat)

inductive PureOp where
  | add | sub | mul | sdiv | srem | udiv | urem | shl | ashr | lshr | orb | xorb | andb
  | cntpop | cntlz | cnttz | rotl | rotr
  | fadd | fsub | fmul | fdiv | frem | fmadd | fneg | fabs | fcopysign | fsqrt
  deriving DecidableEq, Repr

inductive Pure where
  | pureArith (oper : PureOp) (sz : Nat)
  | extend (signed : Bool) (toSz : Nat)
  | trunc (toSz : Nat)
  | intToFloat (toSz : Nat)
  | floatToBits (sz : Nat)
  | bitsToFloat (sz : Nat)
  | pureSubscript
  | pureRawSubscript (kind : NumKind) (sz : Nat)
  | rawSelect (kind : NumKind) (sz : Nat) (offset : Int)

inductive Looker where
  | deref
  | subscript
  | rawSubscript (kind : NumKind) (sz : Nat)
  | rawLoad (kind : NumKind) (sz : Nat)
  | getHdlr
  | getVar

inductive Setter where
  | unboxedUpdate
  | update
  | unboxedAssign
  | assign
  | rawUpdate (kind : NumKind) (sz : Nat)
  | rawStore (kind : NumKind) (sz : Nat)
  | setHdlr
  | setVar

inductive CmpOp where
  | gt | gte | lt | lte | eql | neq
  deriving DecidableEq, Repr

inductive FCmpOp where
  | eq | ulg | un | leg | gt | ge | ugt | uge | lt | le | ult | ule | lg | ue
  deriving DecidableEq, Repr

inductive Branch where
  | cmp (oper : CmpOp) (signed : Bool) (sz : Nat)
  | fcmp (oper : FCmpOp)
  | fsgn (sz : Nat)
  | peql
  | pneq
  | limit (amt : Nat)

def operand (args : List Value) (i : Nat) : Gen Value := ofOption args[i]?

section Prim

variable (env : Env)

def initFields (allocPtr : Value) : List Value → Nat → Gen Unit
  | [], _ => pure ()
  | arg :: args, i => do
      let v ← asMLValue arg
      let adr ← createGEP allocPtr (i32Const i)
      createStore v adr env.target.wordSzB
      initFields allocPtr args (i + 1)

def allocRecord (desc : Value) (args : List Value) : Gen Value := do
  require (desc.ty = env.target.intTy)
  let allocPtr ← mlReg env .allocPtr
  createStore desc allocPtr env.target.wordSzB
  initFields env allocPtr args 1
  let adr ← createGEP allocPtr (i32Const 1)
  let obj ← asMLValue adr
  let next ← createGEP allocPtr (i32Const (args.length + 1))
  setMLReg env .allocPtr next
  pure obj

def storeRawField (fld : RawTy) (arg adr : Value) : Gen Unit :=
  let elemTy := numType fld.kind fld.sz
  if arg.ty = mlValueTy then do
    require (elemTy.primitiveSizeInBits = env.target.intTy.primitiveSizeInBits)
    createStoreML env arg adr
  else do
    require (arg.ty = elemTy)
    createStore arg adr fld.bytes

def storeRawFields (obj : Value) : List RawTy → List Value → CInt → Gen CInt
  | fld :: flds, arg :: args, offset => do
      let offset ← ofOption (fieldOffset offset fld.szb)
      let adr ← createElemGEP .i8 obj (i32Const offset.toInt)
      storeRawField env fld arg adr
      let next ← ofOption (CInt.add offset fld.szb)
      storeRawFields obj flds args next
  | [], [], offset => pure offset
  | _, _, _ => failure

def allocRawRecord (desc : Nat) (fields : List RawTy) (args : List Value) : Gen Value := do
  let allocPtr ← mlReg env .allocPtr
  createStoreInt env (uConst env desc) allocPtr
  let adr ← createGEP allocPtr (i32Const 1)
  let obj ← asMLValue adr
  let offset ← storeRawFields env obj fields args 0
  let offset ← ofOption (alignOffset offset (BitVec.ofNat 32 env.target.wordSzB))
  let next ← createGEP obj (i32Const offset.toInt)
  setMLReg env .allocPtr next
  pure obj

def alignAllocPtr (allocPtr : Value) (align : Nat) : Gen Value :=
  if env.target.wordSzB < align then do
    let adr ← createBinOp env .or (allocPtr.cast env.target.intTy)
      (uConst env (align - env.target.wordSzB))
    pure (adr.cast .ptr)
  else pure allocPtr

def rawHeader (desc : Option Nat) (align : Nat) (allocPtr : Value) : Gen Value :=
  match desc with
  | some desc => do
      let allocPtr ← alignAllocPtr env allocPtr align
      createStoreML env (uConst env desc) allocPtr
      pure allocPtr
  | none => do
      require (align = env.target.wordSzB)
      pure allocPtr

def allocRaw (desc : Option Nat) (align len : Nat) : Gen Value := do
  let allocPtr ← mlReg env .allocPtr
  let allocPtr ← rawHeader env desc align allocPtr
  let obj ← createGEP allocPtr (i32Const 1)
  let next ← createElemGEP .i8 allocPtr (i32Const (len + env.target.wordSzB))
  setMLReg env .allocPtr next
  pure obj

def Alloc.codegen (oper : Alloc) (args : List Value) : Gen Value :=
  match oper, args with
  | .special, [desc, content] => allocRecord env (asInt env desc) [content]
  | .special, _ => failure
  | .record desc, args => allocRecord env (uConst env desc) args
  | .rawRecord desc fields, args => allocRawRecord env desc fields args
  | .rawAlloc desc align len, _ => allocRaw env desc align len

def intOp (op : BinOp) (sz : Nat) (args : List Value) : Gen Value := do
  let a ← operand args 0
  let b ← operand args 1
  createBinOp env op (asIntSz sz a) (asIntSz sz b)

def floatOp (op : BinOp) (args : List Value) : Gen Value := do
  let a ← operand args 0
  let b ← operand args 1
  emit (.binop op) [a, b] a.ty

def intrinsicTy (k : NumKind) (sz : Nat) : LlvmTy := numType k (if sz = 32 then 32 else 64)

def callIntrinsic (fn : Intrinsic) (k : NumKind) (sz : Nat) (args : List Value) : Gen Value :=
  emit (.intrinsic fn (intrinsicTy k sz)) args (intrinsicTy k sz)

def countZeros (fn : Intrinsic) (sz : Nat) (args : List Value) : Gen Value := do
  let a ← operand args 0
  callIntrinsic fn .int sz [a, .const 0 .i8]

def rotate (fn : Intrinsic) (sz : Nat) (args : List Value) : Gen Value := do
  let a ← operand args 0
  let b ← operand args 1
  callIntrinsic fn .int sz [a, a, b]

def PureOp.codegen (oper : PureOp) (sz : Nat) (args : List Value) : Gen Value :=
  match oper with
  | .add => intOp env .add sz args
  | .sub => intOp env .sub sz args
  | .mul => intOp env .mul sz args
  | .sdiv => intOp env .sdiv sz args
  | .srem => intOp env .srem sz args
  | .udiv => intOp env .udiv sz args
  | .urem => intOp env .urem sz args
  | .shl => intOp env .shl sz args
  | .ashr => intOp env .ashr sz args
  | .lshr => intOp env .lshr sz args
  | .orb => intOp env .or sz args
  | .xorb => intOp env .xor sz args
  | .andb => intOp env .and sz args
  | .cntpop => callIntrinsic .ctpop .int sz args
  | .cntlz => countZeros .ctlz sz args
  | .cnttz => countZeros .cttz sz args
  | .rotl => rotate .fshl sz args
  | .rotr => rotate .fshr sz args
  | .fadd => floatOp .fadd args
  | .fsub => floatOp .fsub args
  | .fmul => floatOp .fmul args
  | .fdiv => floatOp .fdiv args
  | .frem => floatOp .frem args
  | .fmadd => callIntrinsic .fma .flt sz args
  | .fneg => do
      let a ← operand args 0
      emit .fneg [a] a.ty
  | .fabs => callIntrinsic .fabs .flt sz args
  | .fcopysign => callIntrinsic .copysign .flt sz args
  | .fsqrt => callIntrinsic .sqrt .flt sz args

def extendValue (signed : Bool) (toSz : Nat) (a : Value) : Gen Value :=
  if a.ty ≠ mlValueTy then emit (.cast (if signed then .sext else .zext)) [a] (iType toSz)
  else do
    require (!signed)
    require (iType toSz = env.target.intTy)
    pure a

def convert (op : CastOp) (ty : LlvmTy) (args : List Value) : Gen Value := do
  let a ← operand args 0
  emit (.cast op) [a] ty

def rawElement (scale : LlvmTy) (kind : NumKind) (sz : Nat) (args : List Value) : Gen Value := do
  let base ← operand args 0
  let idx ← operand args 1
  let adr ← createElemGEP scale base idx
  createLoad (numType kind sz) adr (bitsToBytes sz)

def mlElement (args : List Value) : Gen Value := do
  let base ← operand args 0
  let base ← asPtr base
  let idx ← operand args 1
  let adr ← createGEP base (asInt env idx)
  createLoad mlValueTy adr 0

def Pure.codegen (oper : Pure) (args : List Value) : Gen Value :=
  match oper with
  | .pureArith oper sz => oper.codegen env sz args
  | .extend signed toSz => do
      let a ← operand args 0
      extendValue env signed toSz a
  | .trunc toSz => convert .trunc (iType toSz) args
  | .intToFloat toSz => convert .siToFP (fType toSz) args
  | .floatToBits sz => convert .bitCast (iType sz) args
  | .bitsToFloat sz => convert .bitCast (fType sz) args
  | .pureSubscript => mlElement env args
  | .pureRawSubscript kind sz => rawElement (numType kind sz) kind sz args
  | .rawSelect kind sz offset => do
      let base ← operand args 0
      rawElement .i8 kind sz [base, uConst env offset]

def Looker.codegen (oper : Looker) (args : List Value) : Gen Value :=
  match oper with
  | .deref => do
      let a ← operand args 0
      let adr ← asPtr a
      createLoad mlValueTy adr 0
  | .subscript => mlElement env args
  | .rawSubscript kind sz => rawElement (numType kind sz) kind sz args
  | .rawLoad kind sz => rawElement .i8 kind sz args
  | .getHdlr => mlReg env .exnHndlr
  | .getVar => mlReg env .varPtr

def recordStore (adr : Value) : Gen Unit := do
  let allocPtr ← mlReg env .allocPtr
  let storePtr ← mlReg env .storePtr
  let content ← createGEP allocPtr (i32Const 0)
  createStoreML env adr content
  let link ← createGEP allocPtr (i32Const 1)
  createStoreML env storePtr link
  setMLReg env .storePtr allocPtr
  let next ← createGEP allocPtr (i32Const 2)
  setMLReg env .allocPtr next

def elementAdr (scale : LlvmTy) (args : List Value) : Gen Value := do
  let base ← operand args 0
  let idx ← operand args 1
  createElemGEP scale base idx

def storeRawElement (kind : NumKind) (sz : Nat) (v adr : Value) : Gen Unit :=
  if v.ty = mlValueTy then do
    require (numType kind sz = env.target.intTy)
    createStoreML env v adr
  else createStore v adr (bitsToBytes sz)

def Setter.codegen (oper : Setter) (args : List Value) : Gen Unit :=
  match oper with
  | .unboxedUpdate => do
      let adr ← elementAdr mlValueTy args
      let v ← operand args 2
      createStoreML env v adr
  | .update => do
      let adr ← elementAdr mlValueTy args
      recordStore env adr
      let v ← operand args 2
      createStoreML env v adr
  | .unboxedAssign => do
      let adr ← operand args 0
      let adr ← asMLValue adr
      let v ← operand args 1
      createStore (asInt env v) adr env.target.wordSzB
  | .assign => do
      let adr ← operand args 0
      recordStore env adr
      let v ← operand args 1
      createStoreML env v adr
  | .rawUpdate kind sz => do
      let adr ← elementAdr (numType kind sz) args
      let v ← operand args 2
      storeRawElement env kind sz v adr
  | .rawStore _ sz => do
      let adr ← elementAdr .i8 args
      let v ← operand args 2
      createStore v adr (bitsToBytes sz)
  | .setHdlr => do
      let v ← operand args 0
      setMLReg env .exnHndlr v
  | .setVar => do
      let v ← operand args 0
      setMLReg env .varPtr v

def CmpOp.pred : CmpOp → Bool → ICmpPred
  | gt, true => .sgt
  | gt, false => .ugt
  | gte, true => .sge
  | gte, false => .uge
  | lt, true => .slt
  | lt, false => .ult
  | lte, true => .sle
  | lte, false => .ule
  | eql, _ => .eq
  | neq, _ => .ne

def FCmpOp.pred : FCmpOp → FCmpPred
  | eq => .oeq
  | ulg => .une
  | un => .one
  | leg => .ord
  | gt => .ogt
  | ge => .oge
  | ugt => .ugt
  | uge => .uge
  | lt => .olt
  | le => .ole
  | ult => .ult
  | ule => .ule
  | lg => .one
  | ue => .ueq

def limitAdr (amt : Nat) (allocPtr : Value) : Gen Value :=
  if env.target.allocSlopSzb < amt then
    createBinOp env .add allocPtr (uConst env (amt - env.target.allocSlopSzb))
  else pure (asInt env allocPtr)

def Branch.codegen (oper : Branch) (args : List Value) : Gen Nat :=
  match oper with
  | .cmp oper signed sz => do
      let a ← operand args 0
      let b ← operand args 1
      createICmp env (oper.pred signed) (asIntSz sz a) (asIntSz sz b)
  | .fcmp oper => do
      let a ← operand args 0
      let b ← operand args 1
      insert (.fcmp oper.pred) [a, b] none
  | .fsgn sz => do
      let a ← operand args 0
      createICmp env .slt (a.coerce (iType sz)) (.const 0 (iType sz))
  | .peql => do
      let a ← operand args 0
      let b ← operand args 1
      createICmp env .eq a b
  | .pneq => do
      let a ← operand args 0
      let b ← operand args 1
      createICmp env .ne a b
  | .limit amt => do
      let allocPtr ← mlReg env .allocPtr
      let adr ← limitAdr env amt allocPtr
      let limitPtr ← mlReg env .limitPtr
      createICmp env .ugt adr (asInt env limitPtr)

/-! ## Straight-line operations -/

namespace StraightLine

variable {target : TargetInfo} {mode : Bool}

theorem operand (args : List Value) (i : Nat) : StraightLine target mode (Builder.operand args i) :=
  ofOption _

theorem initFields (allocPtr : Value) (args : List Value) (i : Nat) :
    StraightLine target mode (Builder.initFields env allocPtr args i) := by
  induction args generalizing i with
  | nil => exact pure ()
  | cons arg args ih =>
    exact bind (asPtr arg) fun _ => bind (createGEP _ _) fun _ =>
      bind (createStore _ _ _) fun _ => ih (i + 1)

theorem allocRecord (desc : Value) (args : List Value) :
    StraightLine target true (Builder.allocRecord env desc args) := by
  unfold Builder.allocRecord
  refine bind (require _) fun _ => bind (mlReg env _) fun allocPtr => ?_
  refine bind (createStore _ _ _) fun _ => bind (initFields env _ _ _) fun _ => ?_
  refine bind (createGEP _ _) fun adr => bind (asPtr adr) fun obj => ?_
  exact bind (createGEP _ _) fun next => bind (setMLReg env _ _) fun _ => pure obj

theorem storeRawField (fld : RawTy) (arg adr : Value) :
    StraightLine target mode (Builder.storeRawField env fld arg adr) := by
  unfold Builder.storeRawField
  split
  · exact bind (require _) fun _ => createStoreML env _ _
  · exact bind (require _) fun _ => createStore _ _ _

theorem storeRawFields (obj : Value) (flds : List RawTy) (args : List Value) (offset : CInt) :
    StraightLine target mode (Builder.storeRawFields env obj flds args offset) := by
  induction flds generalizing args offset with
  | nil =>
    cases args with
    | nil => exact pure offset
    | cons arg args => exact failure
  | cons fld flds ih =>
    cases args with
    | nil => exact failure
    | cons arg args =>
      refine bind (ofOption _) fun offset => bind (createElemGEP _ _ _) fun adr => ?_
      exact bind (storeRawField env _ _ _) fun _ => bind (ofOption _) fun next => ih args next

theorem allocRawRecord (desc : Nat) (fields : List RawTy) (args : List Value) :
    StraightLine target true (Builder.allocRawRecord env desc fields args) := by
  unfold Builder.allocRawRecord
  refine bind (mlReg env _) fun allocPtr => bind (createStoreInt env _ _) fun _ => ?_
  refine bind (createGEP _ _) fun adr => bind (asPtr adr) fun obj => ?_
  refine bind (storeRawFields env _ _ _ _) fun offset => bind (ofOption _) fun offset => ?_
  exact bind (createGEP _ _) fun next => bind (setMLReg env _ _) fun _ => pure obj

theorem rawHeader (desc : Option Nat) (align : Nat) (allocPtr : Value) :
    StraightLine target mode (Builder.rawHeader env desc align allocPtr) := by
  cases desc with
  | none => exact bind (require _) fun _ => pure _
  | some desc =>
    have halign : StraightLine target mode (alignAllocPtr env allocPtr align) := by
      unfold alignAllocPtr
      split
      · exact bind (createBinOp env _ _ _) fun _ => pure _
      · exact pure _
    exact bind halign fun _ => bind (createStoreML env _ _) fun _ => pure _

theorem allocRaw (desc : Option Nat) (align len : Nat) :
    StraightLine target true (Builder.allocRaw env desc align len) := by
  unfold Builder.allocRaw
  refine bind (mlReg env _) fun _ => bind (rawHeader env _ _ _) fun allocPtr => ?_
  refine bind (createGEP _ _) fun obj => bind (createElemGEP _ _ _) fun next => ?_
  exact bind (setMLReg env _ _) fun _ => pure obj

theorem alloc (oper : Alloc) (args : List Value) : StraightLine target true (oper.codegen env args) := by
  unfold Alloc.codegen
  split
  · exact allocRecord env _ _
  · exact failure
  · exact allocRecord env _ _
  · exact allocRawRecord env _ _ _
  · exact allocRaw env _ _ _

theorem intOp (op : BinOp) (sz : Nat) (args : List Value) :
    StraightLine target mode (Builder.intOp env op sz args) :=
  bind (operand _ _) fun _ => bind (operand _ _) fun _ => createBinOp env _ _ _

theorem floatOp (op : BinOp) (args : List Value) : StraightLine target mode (Builder.floatOp op args) :=
  bind (operand _ _) fun _ => bind (operand _ _) fun _ => emit _ _ _

theorem convert (op : CastOp) (ty : LlvmTy) (args : List Value) :
    StraightLine target mode (Builder.convert op ty args) :=
  bind (operand _ _) fun _ => emit _ _ _

theorem pureOp (oper : PureOp) (sz : Nat) (args : List Value) :
    StraightLine target mode (oper.codegen env sz args) := by
  unfold PureOp.codegen
  cases oper with
  | add | sub | mul | sdiv | srem | udiv | urem | shl | ashr | lshr | orb | xorb | andb =>
    exact intOp env _ _ _
  | fadd | fsub | fmul | fdiv | frem => exact floatOp _ _
  | cntpop | fmadd | fabs | fcopysign | fsqrt => exact emit _ _ _
  | cntlz | cnttz => exact bind (operand _ _) fun _ => emit _ _ _
  | rotl | rotr => exact bind (operand _ _) fun _ => bind (operand _ _) fun _ => emit _ _ _
  | fneg => exact bind (operand _ _) fun _ => emit _ _ _

theorem rawElement (scale : LlvmTy) (kind : NumKind) (sz : Nat) (args : List Value) :
    StraightLine target mode (Builder.rawElement scale kind sz args) :=
  bind (operand _ _) fun _ => bind (operand _ _) fun _ =>
    bind (createElemGEP _ _ _) fun _ => createLoad _ _ _

theorem mlElement (args : List Value) : StraightLine target mode (Builder.mlElement env args) :=
  bind (operand _ _) fun base => bind (asPtr base) fun _ => bind (operand _ _) fun _ =>
    bind (createGEP _ _) fun _ => createLoad _ _ _

theorem extendValue (signed : Bool) (toSz : Nat) (a : Value) :
    StraightLine target mode (Builder.extendValue env signed toSz a) := by
  unfold Builder.extendValue
  split
  · exact emit _ _ _
  · exact bind (require _) fun _ => bind (require _) fun _ => pure _

theorem pureExp (oper : Pure) (args : List Value) : StraightLine target mode (oper.codegen env args) := by
  unfold Pure.codegen
  cases oper with
  | pureArith oper sz => exact pureOp env _ _ _
  | extend signed toSz => exact bind (operand _ _) fun _ => extendValue env _ _ _
  | trunc | intToFloat | floatToBits | bitsToFloat => exact convert _ _ _
  | pureSubscript => exact mlElement env _
  | pureRawSubscript kind sz => exact rawElement _ _ _ _
  | rawSelect kind sz offset => exact bind (operand _ _) fun _ => rawElement _ _ _ _

theorem looker (oper : Looker) (args : List Value) : StraightLine target mode (oper.codegen env args) := by
  unfold Looker.codegen
  cases oper with
  | deref => exact bind (operand _ _) fun a => bind (asPtr a) fun _ => createLoad _ _ _
  | subscript => exact mlElement env _
  | rawSubscript kind sz => exact rawElement _ _ _ _
  | rawLoad kind sz => exact rawElement _ _ _ _
  | getHdlr => exact mlReg env _
  | getVar => exact mlReg env _

theorem recordStore (adr : Value) : StraightLine target true (Builder.recordStore env adr) := by
  unfold Builder.recordStore
  refine bind (mlReg env _) fun allocPtr => bind (mlReg env _) fun storePtr => ?_
  refine bind (createGEP _ _) fun _ => bind (createStoreML env _ _) fun _ => ?_
  refine bind (createGEP _ _) fun _ => bind (createStoreML env _ _) fun _ => ?_
  exact bind (setMLReg env _ _) fun _ => bind (createGEP _ _) fun _ => setMLReg env _ _

theorem elementAdr (scale : LlvmTy) (args : List Value) :
    StraightLine target mode (Builder.elementAdr scale args) :=
  bind (operand _ _) fun _ => bind (operand _ _) fun _ => createElemGEP _ _ _

theorem storeRawElement (kind : NumKind) (sz : Nat) (v adr : Value) :
    StraightLine target mode (Builder.storeRawElement env kind sz v adr) := by
  unfold Builder.storeRawElement
  split
  · exact bind (require _) fun _ => createStoreML env _ _
  · exact createStore _ _ _

theorem setter (oper : Setter) (args : List Value) : StraightLine target true (oper.codegen env args) := by
  unfold Setter.codegen
  cases oper with
  | unboxedUpdate =>
    exact bind (elementAdr _ _) fun _ => bind (operand _ _) fun _ => createStoreML env _ _
  | update =>
    exact bind (elementAdr _ _) fun _ => bind (recordStore env _) fun _ =>
      bind (operand _ _) fun _ => createStoreML env _ _
  | unboxedAssign =>
    exact bind (operand _ _) fun adr => bind (asPtr adr) fun _ =>
      bind (operand _ _) fun _ => createStore _ _ _
  | assign =>
    exact bind (operand _ _) fun _ => bind (recordStore env _) fun _ =>
      bind (operand _ _) fun _ => createStoreML env _ _
  | rawUpdate kind sz =>
    exact bind (elementAdr _ _) fun _ => bind (operand _ _) fun _ => storeRawElement env _ _ _ _
  | rawStore kind sz =>
    exact bind (elementAdr _ _) fun _ => bind (operand _ _) fun _ => createStore _ _ _
  | setHdlr | setVar => exact bind (operand _ _) fun _ => setMLReg env _ _

theorem limitAdr (amt : Nat) (allocPtr : Value) :
    StraightLine target mode (Builder.limitAdr env amt allocPtr) := by
  unfold Builder.limitAdr
  split
  · exact createBinOp env _ _ _
  · exact pure _

theorem branch (oper : Branch) (args : List Value) : StraightLine target mode (oper.codegen env args) := by
  unfold Branch.codegen
  cases oper with
  | cmp | peql | pneq =>
    exact bind (operand _ _) fun _ => bind (operand _ _) fun _ => createICmp env _ _ _
  | fcmp oper => exact bind (operand _ _) fun _ => bind (operand _ _) fun _ => insert _ _ _
  | fsgn sz => exact bind (operand _ _) fun _ => createICmp env _ _ _
  | limit amt =>
    exact bind (mlReg env _) fun _ => bind (limitAdr env _ _) fun _ =>
      bind (mlReg env _) fun _ => createICmp env _ _ _

end StraightLine

def createPHIs : List LlvmTy → Gen Unit
  | [] => pure ()
  | ty :: tys => do
      createPHI ty
      createPHIs tys

def raiseOverflow (bb : Block) : Gen Unit := do
  let raiseFn ← loadFromStack env env.target.raiseOvflwOffset
  let _ ← insert (.call raiseFn)
    ((List.range env.target.numMachineRegs).map fun i => .phi bb i .ptr) none
  terminate .retVoid

def setOverflowBB (bb : Block) : Gen Unit := fun s => some ((), { s with overflowBB := some bb })

def createOverflowBB (srcBB : Block) : Gen Block := do
  let s ← get
  match s.overflowBB with
  | some bb => pure bb
  | none => do
      let bb ← newBB
      setOverflowBB bb
      setInsertPoint bb
      createPHIs (List.replicate env.target.numMachineRegs .ptr)
      raiseOverflow env bb
      setInsertPoint srcBB
      pure bb

def regValue (r : CMRegId) : Gen Value := fun s => (s.regState.get r).map fun v => (v, s)

/-- The loop that adds the register values of `srcBB` to the PHI nodes of the overflow block. -/
def addOverflowIncoming (bb srcBB : Block) : List CMRegId → Nat → Gen Unit
  | [], _ => pure ()
  | r :: rs, i => do
      let v ← regValue r
      addIncoming bb i v srcBB
      addOverflowIncoming bb srcBB rs (i + 1)

def getOverflowBB : Gen Block := do
  let srcBB ← getCurBB
  let bb ← createOverflowBB env srcBB
  addOverflowIncoming bb srcBB env.target.machineRegs 0
  pure bb

def arithWithOverflow (fn : Intrinsic) (sz : Nat) (args : List Value) : Gen Value := do
  let ty := intrinsicTy .int sz
  let pair ← insert (.intrinsic fn ty) args none
  let res ← emit (.extractValue pair 0) [] ty
  let obit ← insert (.extractValue pair 1) [] none
  let next ← newBB
  let overflow ← getOverflowBB env
  terminate (.condBr obit overflow next)
  setInsertPoint next
  pure res

def Arith.codegen (oper : Arith) (args : List Value) : Gen Value :=
  match oper, args with
  | .arith oper sz, [a, b] =>
    let a := asIntSz sz a
    let b := asIntSz sz b
    match oper with
    | .iadd => arithWithOverflow env .saddWithOverflow sz [a, b]
    | .isub => arithWithOverflow env .ssubWithOverflow sz [a, b]
    | .imul => arithWithOverflow env .smulWithOverflow sz [a, b]
    | .idiv => createBinOp env .sdiv a b
    | .irem => createBinOp env .srem a b
  | .arith _ _, _ => failure
  | .floatToInt toSz, args => convert .fpToSI (iType toSz) args

end Prim

end SmlnjLlvm.Codegen.Builder
