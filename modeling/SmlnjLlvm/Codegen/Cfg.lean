import SmlnjLlvm.Codegen.CallingConv
import SmlnjLlvm.Codegen.Prim

/-!
# Code generation for clusters

Initialization gives a basic block to each fragment and to each arm of a
conditional, and PHI nodes to the internal fragments. Code generation then
walks every statement with one mutable register state, which it saves at a
conditional and restores before the later arms.
-/

namespace SmlnjLlvm.Codegen.Builder

open PartialState

structure Param where
  name : Lvar
  ty : CfgTy

inductive Exp where
  | var (name : Lvar)
  | label (name : Lvar)
  | num (iv : Int) (sz : Nat)
  | looker (oper : Looker) (args : List Exp)
  | pure (oper : Pure) (args : List Exp)
  | select (idx : Int) (arg : Exp)

/-- Statements; `bb` is the block of a statement that starts one. -/
inductive Stm where
  | letS (bb : Option Block) (e : Exp) (x : Param) (k : Stm)
  | alloc (bb : Option Block) (oper : Alloc) (args : List Exp) (x : Lvar) (k : Stm)
  | apply (bb : Option Block) (fn : Exp) (args : List Exp) (tys : List CfgTy)
  | throw (bb : Option Block) (fn : Exp) (args : List Exp) (tys : List CfgTy)
  | goto (bb : Option Block) (lab : Lvar) (args : List Exp)
  | switch (bb : Option Block) (arg : Exp) (arms : List Stm)
  | branch (bb : Option Block) (oper : Branch) (args : List Exp) (k₁ k₂ : Stm)
  | arith (bb : Option Block) (oper : Arith) (args : List Exp) (x : Param) (k : Stm)
  | setter (bb : Option Block) (oper : Setter) (args : List Exp) (k : Stm)
  | callGC (bb : Option Block) (roots : List Exp) (newRoots : List Lvar) (k : Stm)
  | rcc (bb : Option Block) (k : Stm)

def Stm.bb : Stm → Option Block
  | letS bb .. => bb
  | alloc bb .. => bb
  | apply bb .. => bb
  | throw bb .. => bb
  | goto bb .. => bb
  | switch bb .. => bb
  | branch bb .. => bb
  | arith bb .. => bb
  | setter bb .. => bb
  | callGC bb .. => bb
  | rcc bb .. => bb

structure Frag where
  kind : FragKind
  lab : Lvar
  params : List Param
  body : Stm

structure Cluster where
  attrs : Attrs
  frags : List Frag

def initBB (blkEntry : Bool) : Gen (Option Block) :=
  if blkEntry then do
    let bb ← newBB
    pure (some bb)
  else pure none

mutual

def Stm.init : Stm → Bool → Gen Stm
  | .letS _ e x k, blkEntry => do
      let bb ← initBB blkEntry
      let k ← k.init false
      pure (.letS bb e x k)
  | .alloc _ oper args x k, blkEntry => do
      let bb ← initBB blkEntry
      let k ← k.init false
      pure (.alloc bb oper args x k)
  | .apply _ fn args tys, blkEntry => do
      let bb ← initBB blkEntry
      pure (.apply bb fn args tys)
  | .throw _ fn args tys, blkEntry => do
      let bb ← initBB blkEntry
      pure (.throw bb fn args tys)
  | .goto _ lab args, blkEntry => do
      let bb ← initBB blkEntry
      pure (.goto bb lab args)
  | .switch _ arg arms, blkEntry => do
      let bb ← initBB blkEntry
      let arms ← Stm.initArms arms
      pure (.switch bb arg arms)
  | .branch _ oper args k₁ k₂, blkEntry => do
      let bb ← initBB blkEntry
      let k₁ ← k₁.init true
      let k₂ ← k₂.init true
      pure (.branch bb oper args k₁ k₂)
  | .arith _ oper args x k, blkEntry => do
      let bb ← initBB blkEntry
      let k ← k.init false
      pure (.arith bb oper args x k)
  | .setter _ oper args k, blkEntry => do
      let bb ← initBB blkEntry
      let k ← k.init false
      pure (.setter bb oper args k)
  | .callGC _ roots newRoots k, blkEntry => do
      let bb ← initBB blkEntry
      let k ← k.init false
      pure (.callGC bb roots newRoots k)
  | .rcc _ k, blkEntry => do
      let bb ← initBB blkEntry
      let k ← k.init false
      pure (.rcc bb k)

def Stm.initArms : List Stm → Gen (List Stm)
  | [] => pure []
  | arm :: arms => do
      let arm ← arm.init true
      let arms ← Stm.initArms arms
      pure (arm :: arms)

end

def Frag.paramTys (env : Env) (frag : Frag) : List LlvmTy :=
  createParamTys env.target env.attrs frag.kind ++
    frag.params.map fun x => x.ty.codegen env.target

def createFragPHIs (env : Env) (frag : Frag) (bb : Block) : Gen Unit :=
  if frag.kind = .internal then do
    setInsertPoint bb
    createPHIs (frag.paramTys env)
  else pure ()

def Frag.init (env : Env) (frag : Frag) : Gen Frag := do
  let body ← frag.body.init true
  let bb ← ofOption body.bb
  insertFrag frag.lab ⟨frag.kind, bb⟩
  createFragPHIs env frag bb
  pure { frag with body := body }

def Frag.initAll (env : Env) : List Frag → Gen (List Frag)
  | [] => pure []
  | frag :: frags => do
      let frag ← frag.init env
      let frags ← Frag.initAll env frags
      pure (frag :: frags)

section Codegen

variable (env : Env)

/-- The address of a label; without PC-relative addressing it is relative to the base pointer. -/
def evalLabel (lab : Lvar) : Gen Value :=
  if env.target.hasPCRel then pure (.label lab)
  else do
    let s ← get
    let basePtr ← ofOption s.regState.basePtr
    let adr ← createBinOp env .add basePtr (.labelDiff lab)
    pure (adr.cast mlValueTy)

mutual

def Exp.codegen : Exp → Gen Value
  | .var name => lookupVal name
  | .label name => do
      let _ ← ofOption (env.lookupCluster name)
      evalLabel env name
  | .num iv sz => Pure.pure (.const iv (iType sz))
  | .looker oper args => do
      let args ← Exp.codegenArgs args
      oper.codegen env args
  | .pure oper args => do
      let args ← Exp.codegenArgs args
      oper.codegen env args
  | .select idx arg => do
      let base ← arg.codegen
      let base ← asPtr base
      let adr ← createGEP base (i32Const idx)
      createLoad mlValueTy adr 0

def Exp.codegenArgs : List Exp → Gen (List Value)
  | [] => Pure.pure []
  | e :: es => do
      let v ← e.codegen
      let vs ← Exp.codegenArgs es
      Pure.pure (v :: vs)

end

/-! ## Statements -/

def castArg (tgtTy : LlvmTy) (arg : Value) : Gen Value :=
  if arg.ty = tgtTy then pure arg else castTy arg.ty tgtTy arg

def setupUserArgs (fnTy : List LlvmTy) : List Exp → Nat → Gen (List Value)
  | [], _ => pure []
  | e :: es, i => do
      let arg ← e.codegen env
      let tgtTy ← ofOption fnTy[i]?
      let arg ← castArg tgtTy arg
      let args ← setupUserArgs fnTy es (i + 1)
      pure (arg :: args)

def setupStdArgs (fnTy : List LlvmTy) (kind : FragKind) (cfgArgs : List Exp) : Gen (List Value) := do
  let args ← createArgList env kind
  let userArgs ← setupUserArgs env fnTy cfgArgs args.length
  pure (args ++ userArgs)

def Exp.asLabel : Exp → Option Lvar
  | label name => some name
  | _ => none

def callee (op : Transfer) (fn : Exp) (tys : List CfgTy) : Gen (Value × List LlvmTy × FragKind) :=
  match fn.asLabel with
  | some lab => do
      let cluster ← ofOption (env.lookupCluster lab)
      let kind := match op with
        | .apply => cluster.kind
        | .throw => .stdCont
      pure (.label lab, cluster.fnTy, kind)
  | none => do
      let kind : FragKind := match op with
        | .apply => .stdFun
        | .throw => .stdCont
      let fnTy := createFnTy env.target env.attrs kind (tys.map fun ty => ty.codegen env.target)
      let v ← fn.codegen env
      pure (v.coerce .ptr, fnTy, kind)

def transfer (op : Transfer) (fn : Exp) (args : List Exp) (tys : List CfgTy) : Gen Unit := do
  let (v, fnTy, kind) ← callee env op fn tys
  require (passesCheck env.target op tys)
  let args ← setupStdArgs env fnTy kind args
  let _ ← insert (.call v) args none
  terminate .retVoid

def addFragIncoming (bb srcBB : Block) : List Value → Nat → Gen Unit
  | [], _ => pure ()
  | arg :: args, i => do
      let tgtTy ← paramTy bb i
      let arg ← castArg tgtTy arg
      addIncoming bb i arg srcBB
      addFragIncoming bb srcBB args (i + 1)

def goto (lab : Lvar) (cfgArgs : List Exp) : Gen Unit := do
  let srcBB ← getCurBB
  let dst ← lookupFrag lab
  require (dst.kind = .internal)
  let args ← createArgList env .internal
  let userArgs ← Exp.codegenArgs env cfgArgs
  addFragIncoming dst.bb srcBB (args ++ userArgs) 0
  terminate (.br dst.bb)

def gcRoots : List Exp → Gen (List Value)
  | [] => pure []
  | e :: es => do
      let v ← e.codegen env
      let v ← asMLValue v
      let vs ← gcRoots es
      pure (v :: vs)

def gcField (call i : Nat) : Gen Value := do
  let ty ← ofOption (gcFnTy env.target env.attrs)[i]?
  emit (.extractValue call i) [] ty

def restoreGCRegs (call : Nat) : List (CMRegId × Nat) → Gen Unit
  | [] => pure ()
  | (r, hwIx) :: rs => do
      let reg ← gcField env call hwIx
      setMLReg env r reg
      restoreGCRegs call rs

def bindGCRoots (call : Nat) : List Lvar → Nat → Gen Unit
  | [], _ => pure ()
  | lv :: lvs, i => do
      let v ← gcField env call i
      insertVal lv v
      bindGCRoots call lvs (i + 1)

def callGC (roots : List Value) (newRoots : List Lvar) : Gen Unit := do
  require ((gcFnTy env.target env.attrs).length = roots.length)
  let callGCFn ← loadFromStack env env.target.callGCOffset
  let call ← insert (.call callGCFn) roots none
  restoreGCRegs env call (gcResultRegs env.target)
  bindGCRoots env call newRoots env.target.numMachineRegs

def armBlocks : List Stm → Gen (List Block)
  | [] => pure []
  | arm :: arms => do
      let bb ← ofOption arm.bb
      let bbs ← armBlocks arms
      pure (bb :: bbs)

def createSwitch (arg : Value) (arms : List Stm) : Gen Unit := do
  let curBlk ← getCurBB
  let dfltBlk ← newBB
  setInsertPoint dfltBlk
  terminate .unreachable
  setInsertPoint curBlk
  let cases ← armBlocks arms
  terminate (.switch arg dfltBlk cases)

mutual

def Stm.codegen : Stm → Gen Unit
  | .letS _ e x k => do
      let v ← e.codegen env
      insertVal x.name v
      k.codegen
  | .alloc _ oper args x k => do
      let args ← Exp.codegenArgs env args
      let v ← oper.codegen env args
      insertVal x v
      k.codegen
  | .apply _ fn args tys => transfer env .apply fn args tys
  | .throw _ fn args tys => transfer env .throw fn args tys
  | .goto _ lab args => Builder.goto env lab args
  | .switch _ e arms => do
      let v ← e.codegen env
      let arg ← emit (.cast .trunc) [asInt env v] .i32
      createSwitch arg arms
      let saveRegs ← saveSMLRegState
      Stm.codegenArms saveRegs arms
  | .branch _ oper args k₁ k₂ => do
      let args ← Exp.codegenArgs env args
      let cond ← oper.codegen env args
      let bb₁ ← ofOption k₁.bb
      let bb₂ ← ofOption k₂.bb
      terminate (.condBr cond bb₁ bb₂)
      let saveRegs ← saveSMLRegState
      setInsertPoint bb₁
      k₁.codegen
      restoreSMLRegState saveRegs
      setInsertPoint bb₂
      k₂.codegen
  | .arith _ oper args x k => do
      let args ← Exp.codegenArgs env args
      let v ← oper.codegen env args
      insertVal x.name v
      k.codegen
  | .setter _ oper args k => do
      let args ← Exp.codegenArgs env args
      oper.codegen env args
      k.codegen
  | .callGC _ roots newRoots k => do
      let args ← createArgList env .stdFun
      let roots ← gcRoots env roots
      Builder.callGC env (args ++ roots) newRoots
      k.codegen
  | .rcc _ _ => failure

def Stm.codegenArms (saveRegs : CMRegState Value) : List Stm → Gen Unit
  | [] => pure ()
  | arm :: arms => do
      restoreSMLRegState saveRegs
      let bb ← ofOption arm.bb
      setInsertPoint bb
      arm.codegen
      Stm.codegenArms saveRegs arms

end

def setRegState (st : CMRegState Value) : Gen Unit := fun s => some ((), { s with regState := st })

def bindParams : List Param → List Value → Gen Unit
  | x :: xs, v :: vs => do
      insertVal x.name v
      bindParams xs vs
  | _, _ => pure ()

def setupEntry (frag : Frag) : Gen Unit := do
  let s ← get
  let (st, vs) ← ofOption (setupStdEntry env.target env.attrs
    (fun v => v.cast env.target.intTy) frag.kind frag.params.length (getArg env) s.regState)
  setRegState st
  bindParams frag.params vs

def setupInternal (frag : Frag) (bb : Block) : Gen Unit := do
  require (frag.kind = .internal)
  let s ← get
  let (st, vs) ← ofOption (setupFragEntry env.target env.attrs frag.params.length (getPhi s bb)
    s.regState)
  setRegState st
  bindParams frag.params vs

def Frag.codegenEntry (frag : Frag) : Gen Unit := do
  beginFrag
  let bb ← ofOption frag.body.bb
  setInsertPoint bb
  setupEntry env frag
  frag.body.codegen env

def Frag.codegen (frag : Frag) : Gen Unit := do
  beginFrag
  let bb ← ofOption frag.body.bb
  setInsertPoint bb
  setupInternal env frag bb
  frag.body.codegen env

def Frag.codegenAll : List Frag → Gen Unit
  | [] => pure ()
  | frag :: frags => do
      frag.codegen env
      Frag.codegenAll frags

end Codegen

/-- The context at the start of a cluster: an empty function and the registers left before. -/
def beginCluster (regState : CMRegState Value) : Ctx where
  blocks := fun _ => .empty
  numBlocks := 0
  cur := 0
  fresh := 0
  regState := regState
  vMap := fun _ => none
  fragMap := fun _ => none
  overflowBB := none

/-- What `cluster::init` fixes: the type of the function is the one of the entry fragment. -/
def Cluster.env (target : TargetInfo) (lookupCluster : Lvar → Option ClusterRef) (cluster : Cluster)
    (entry : Frag) : Env where
  target := target
  attrs := cluster.attrs
  fnTy := createFnTy target cluster.attrs entry.kind
    (entry.params.map fun x => x.ty.codegen target)
  lookupCluster := lookupCluster

def codegenFrags (env : Env) : List Frag → Gen Unit
  | [] => failure
  | entry :: frags => do
      entry.codegenEntry env
      Frag.codegenAll env frags

def Cluster.codegen (target : TargetInfo) (lookupCluster : Lvar → Option ClusterRef)
    (cluster : Cluster) (regState : CMRegState Value) : Option (List Frag × Ctx) := do
  let entry ← cluster.frags.head?
  let env := cluster.env target lookupCluster entry
  let (frags, s) ← Frag.initAll env cluster.frags (beginCluster regState)
  let (_, s) ← codegenFrags env frags s
  some (frags, s)

namespace StraightLine

variable {target : TargetInfo} {mode : Bool} (env : Env)

theorem evalLabel (lab : Lvar) : StraightLine target mode (Builder.evalLabel env lab) := by
  unfold Builder.evalLabel
  split
  · exact pure _
  · exact bind get fun s => bind (ofOption _) fun _ => bind (createBinOp env _ _ _) fun _ => pure _

mutual

theorem exp (e : Exp) : StraightLine target mode (e.codegen env) := by
  cases e with
  | var name => exact lookupVal name
  | label name => exact bind (ofOption _) fun _ => evalLabel env name
  | num iv sz => exact pure _
  | looker oper args => exact bind (expArgs args) fun args => looker env oper args
  | pure oper args => exact bind (expArgs args) fun args => pureExp env oper args
  | select idx arg =>
    exact bind (exp arg) fun base => bind (asPtr base) fun _ =>
      bind (createGEP _ _) fun _ => createLoad _ _ _

theorem expArgs (es : List Exp) : StraightLine target mode (Exp.codegenArgs env es) := by
  cases es with
  | nil => exact pure _
  | cons e es => exact bind (exp e) fun _ => bind (expArgs es) fun _ => pure _

end

theorem castArg (tgtTy : LlvmTy) (arg : Value) :
    StraightLine target mode (Builder.castArg tgtTy arg) := by
  unfold Builder.castArg
  split
  · exact pure _
  · exact castTy _ _ _

theorem setupUserArgs (fnTy : List LlvmTy) (es : List Exp) (i : Nat) :
    StraightLine target mode (Builder.setupUserArgs env fnTy es i) := by
  induction es generalizing i with
  | nil => exact pure _
  | cons e es ih =>
    exact bind (exp env e) fun arg => bind (ofOption _) fun _ => bind (castArg _ arg) fun _ =>
      bind (ih _) fun _ => pure _

theorem setupStdArgs (fnTy : List LlvmTy) (kind : FragKind) (es : List Exp) :
    StraightLine target mode (Builder.setupStdArgs env fnTy kind es) :=
  bind (createArgList env kind) fun _ => bind (setupUserArgs env _ _ _) fun _ => pure _

theorem callee (op : Transfer) (fn : Exp) (tys : List CfgTy) :
    StraightLine target mode (Builder.callee env op fn tys) := by
  unfold Builder.callee
  split
  · exact bind (ofOption _) fun _ => pure _
  · exact bind (exp env fn) fun _ => pure _

theorem gcRoots (es : List Exp) : StraightLine target mode (Builder.gcRoots env es) := by
  induction es with
  | nil => exact pure _
  | cons e es ih =>
    exact bind (exp env e) fun v => bind (asPtr v) fun _ => bind ih fun _ => pure _

theorem gcField (call i : Nat) : StraightLine target mode (Builder.gcField env call i) :=
  bind (ofOption _) fun _ => emit _ _ _

theorem restoreGCRegs (call : Nat) (rs : List (CMRegId × Nat)) :
    StraightLine target true (Builder.restoreGCRegs env call rs) := by
  induction rs with
  | nil => exact pure _
  | cons r rs ih =>
    exact bind (gcField env call _) fun _ => bind (setMLReg env _ _) fun _ => ih

theorem bindGCRoots (call : Nat) (lvs : List Lvar) (i : Nat) :
    StraightLine target mode (Builder.bindGCRoots env call lvs i) := by
  induction lvs generalizing i with
  | nil => exact pure _
  | cons lv lvs ih =>
    exact bind (gcField env call i) fun _ => bind (insertVal _ _) fun _ => ih _

theorem callGC (roots : List Value) (newRoots : List Lvar) :
    StraightLine target true (Builder.callGC env roots newRoots) := by
  unfold Builder.callGC
  refine bind (require _) fun _ => bind (loadFromStack env _) fun _ => ?_
  refine bind (insert _ _ _) fun _ => bind (restoreGCRegs env _ _) fun _ => ?_
  exact bindGCRoots env _ _ _

theorem bindParams (xs : List Param) (vs : List Value) :
    StraightLine target mode (Builder.bindParams xs vs) := by
  induction xs generalizing vs with
  | nil => exact pure _
  | cons x xs ih =>
    cases vs with
    | nil => exact pure _
    | cons v vs => exact bind (insertVal _ _) fun _ => ih vs

end StraightLine

end SmlnjLlvm.Codegen.Builder
