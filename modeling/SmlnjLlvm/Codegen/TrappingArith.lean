import Mathlib.Algebra.Order.Ring.Int
import SmlnjLlvm.Codegen.Statements

/-!
# Execution of trapping arithmetic

The meaning of integer instructions, of intrinsics with an overflow bit and of
terminators. A division that overflows has no defined result, and code
generation emits no test for it.
-/

namespace SmlnjLlvm.Codegen.Builder

open PartialState

/-! ## Execution -/

inductive RtValue where
  | int (w : Nat) (x : BitVec w)
  | pair (w : Nat) (x : BitVec w) (overflow : Bool)
  | bit (b : Bool)

/-- The values of the instructions so far, and of parameters, PHI nodes and labels. -/
structure Locals where
  inst : Nat → Option RtValue
  leaf : Value → Option RtValue

def Locals.set (ρ : Locals) (id : Nat) (v : RtValue) : Locals :=
  { ρ with inst := Function.update ρ.inst id (some v) }

def typeBits (target : TargetInfo) : LlvmTy → Option Nat
  | .i8 => some 8
  | .i16 => some 16
  | .i32 => some 32
  | .i64 => some 64
  | .ptr => some target.wordSz
  | .f32 | .f64 => none

def Locals.eval (target : TargetInfo) (ρ : Locals) : Value → Option RtValue
  | .inst id _ => ρ.inst id
  | .const n ty => (typeBits target ty).map fun w => .int w (BitVec.ofInt w n)
  | .undef _ => none
  | .cast v ty =>
    match ρ.eval target v, typeBits target ty with
    | some (.int _ x), some w => some (.int w (x.setWidth w))
    | _, _ => none
  | v => ρ.leaf v

def BinOp.eval {w : Nat} (op : BinOp) (x y : BitVec w) : Option (BitVec w) :=
  match op with
  | .add => some (x + y)
  | .sub => some (x - y)
  | .mul => some (x * y)
  | .sdiv => if y = 0 ∨ x = BitVec.intMin w ∧ y = -1 then none else some (x.sdiv y)
  | .udiv => if y = 0 then none else some (x / y)
  | .srem => if y = 0 ∨ x = BitVec.intMin w ∧ y = -1 then none else some (x.srem y)
  | .urem => if y = 0 then none else some (x % y)
  | .shl => if y.toNat < w then some (x <<< y.toNat) else none
  | .ashr => if y.toNat < w then some (x.sshiftRight y.toNat) else none
  | .lshr => if y.toNat < w then some (x >>> y.toNat) else none
  | .or => some (x ||| y)
  | .xor => some (x ^^^ y)
  | .and => some (x &&& y)
  | .fadd | .fsub | .fmul | .fdiv | .frem => none

def Intrinsic.eval {w : Nat} (fn : Intrinsic) (x y : BitVec w) : Option RtValue :=
  match fn with
  | .saddWithOverflow => some (.pair w (x + y) (x.saddOverflow y))
  | .ssubWithOverflow => some (.pair w (x - y) (x.ssubOverflow y))
  | .smulWithOverflow => some (.pair w (x * y) (x.smulOverflow y))
  | _ => none

def Opcode.eval (target : TargetInfo) (ρ : Locals) (op : Opcode) (args : List RtValue) :
    Option RtValue :=
  match op, args with
  | .binop op, [.int w x, .int w' y] =>
    if h : w' = w then (op.eval x (y.cast h)).map (.int w) else none
  | .intrinsic fn ty, [.int w x, .int w' y] =>
    if h : w' = w then if typeBits target ty = some w then fn.eval x (y.cast h) else none
    else none
  | .extractValue agg i, [] =>
    match ρ.inst agg, i with
    | some (.pair w x _), 0 => some (.int w x)
    | some (.pair _ _ overflow), 1 => some (.bit overflow)
    | _, _ => none
  | _, _ => none

def execInst (target : TargetInfo) (ρ : Locals) (i : Inst) : Option Locals := do
  let args ← i.args.mapM (ρ.eval target)
  let v ← i.op.eval target ρ args
  some (ρ.set i.id v)

/-- How execution leaves a block; it falls through at the insertion point. -/
inductive Exit where
  | undefined
  | falls (ρ : Locals)
  | enters (bb : Block) (ρ : Locals)
  | returns

def Terminator.exit (target : TargetInfo) (ρ : Locals) : Terminator → Exit
  | .br dst => .enters dst ρ
  | .condBr cond t f =>
    match ρ.inst cond with
    | some (.bit b) => .enters (if b then t else f) ρ
    | _ => .undefined
  | .switch v dflt cases =>
    match ρ.eval target v with
    | some (.int _ x) => .enters (cases.getD x.toNat dflt) ρ
    | _ => .undefined
  | .retVoid => .returns
  | .unreachable => .undefined

def runFrom (target : TargetInfo) (blk : BasicBlock) (start : Nat) (ρ : Locals) : Exit :=
  match (blk.insts.drop start).foldlM (execInst target) ρ with
  | none => .undefined
  | some ρ =>
    match blk.terms with
    | [] => .falls ρ
    | t :: _ => t.exit target ρ

/-- Execution, from the insertion point of `s`, of the code that has been added in `s'`. -/
def runEmitted (target : TargetInfo) (s s' : Ctx) (ρ : Locals) : Exit :=
  runFrom target (s'.blocks s.cur) (s.blocks s.cur).insts.length ρ

def GoesOn (target : TargetInfo) (s s' : Ctx) (ρ ρ' : Locals) : Prop :=
  runEmitted target s s' ρ = .falls ρ' ∧ s'.cur = s.cur ∨
    runEmitted target s s' ρ = .enters s'.cur ρ' ∧ s'.blocks s'.cur = .empty

def Overflows (target : TargetInfo) (s s' : Ctx) (ρ : Locals) : Prop :=
  ∃ bb ρ', s'.overflowBB = some bb ∧ runEmitted target s s' ρ = .enters bb ρ'

def ArithOp.exact : ArithOp → Int → Int → Int
  | iadd, a, b => a + b
  | isub, a, b => a - b
  | imul, a, b => a * b
  | idiv, a, b => a.tdiv b
  | irem, a, b => a.tmod b

def Fits (sz : Nat) (n : Int) : Prop := -2 ^ (sz - 1) ≤ n ∧ n < 2 ^ (sz - 1)

instance (sz : Nat) (n : Int) : Decidable (Fits sz n) := by
  unfold Fits
  infer_instance

def ArithOp.divides : ArithOp → Bool
  | idiv | irem => true
  | iadd | isub | imul => false

def TrapsExactly (target : TargetInfo) (oper : ArithOp) {sz : Nat} (a b : BitVec sz) (s s' : Ctx)
    (res : Value) (ρ : Locals) : Prop :=
  if Fits sz (oper.exact a.toInt b.toInt) then
    (∃ ρ' r, GoesOn target s s' ρ ρ' ∧ ρ'.eval target res = some (.int sz r) ∧
      r.toInt = oper.exact a.toInt b.toInt) ∧ ¬Overflows target s s' ρ
  else Overflows target s s' ρ ∧ ∀ ρ', ¬GoesOn target s s' ρ ρ'

/-- The insertion point is in an open block, and blocks to come are empty. -/
structure Ctx.Open (s : Ctx) : Prop where
  lt : s.cur < s.numBlocks
  terms : (s.blocks s.cur).terms = []
  beyond : ∀ b, s.numBlocks ≤ b → s.blocks b = .empty
  overflow : ∀ bb, s.overflowBB = some bb → bb < s.numBlocks

def ArithOp.intrinsic : ArithOp → Option Intrinsic
  | iadd => some .saddWithOverflow
  | isub => some .ssubWithOverflow
  | imul => some .smulWithOverflow
  | idiv => none
  | irem => none

variable {args : List Value} {fn : Intrinsic} {op : BinOp} {oper : ArithOp} {res : Value}
  {s s' : Ctx} {sz : Nat} {a b : BitVec sz} {ρ : Locals}

theorem overflow_iff {n : Int} :
    (decide (n ≥ 2 ^ (sz - 1)) || decide (n < -2 ^ (sz - 1))) = true ↔ ¬Fits sz n := by
  rw [Bool.or_eq_true, decide_eq_true_eq, decide_eq_true_eq, Fits]
  omega

theorem intrinsic_spec (h : oper.intrinsic = some fn) (a b : BitVec sz) :
    ∃ r o, fn.eval a b = some (.pair sz r o) ∧
      (o = true ↔ ¬Fits sz (oper.exact a.toInt b.toInt)) ∧
      (o ≠ true → r.toInt = oper.exact a.toInt b.toInt) := by
  cases oper with
  | iadd =>
    cases h
    exact ⟨_, _, rfl, overflow_iff, BitVec.toInt_add_of_not_saddOverflow⟩
  | isub =>
    cases h
    exact ⟨_, _, rfl, overflow_iff, BitVec.toInt_sub_of_not_ssubOverflow⟩
  | imul =>
    cases h
    exact ⟨_, _, rfl, overflow_iff, BitVec.toInt_mul_of_not_smulOverflow⟩
  | idiv => cases h
  | irem => cases h

/-! ## The emitted code -/

variable {env : Env}

/-- Instructions have been appended to the current block. -/
structure Appended (s s' : Ctx) (is : List Inst) : Prop where
  cur : s'.cur = s.cur
  numBlocks : s'.numBlocks = s.numBlocks
  overflowBB : s'.overflowBB = s.overflowBB
  fresh : s'.fresh = s.fresh + is.length
  block : s'.blocks s.cur = { s.blocks s.cur with insts := (s.blocks s.cur).insts ++ is }
  other : ∀ b, b ≠ s.cur → s'.blocks b = s.blocks b

theorem Appended.trans {s₁ s₂ s₃ : Ctx} {is js : List Inst} (h : Appended s₁ s₂ is)
    (h' : Appended s₂ s₃ js) : Appended s₁ s₃ (is ++ js) := by
  have hblock := h'.block
  have hother := h'.other
  rw [h.cur] at hblock hother
  refine ⟨h'.cur.trans h.cur, h'.numBlocks.trans h.numBlocks, h'.overflowBB.trans h.overflowBB,
    ?_, ?_, ?_⟩
  · rw [h'.fresh, h.fresh, List.length_append, Nat.add_assoc]
  · rw [hblock, h.block, List.append_assoc]
  · exact fun b hb => (hother b hb).trans (h.other b hb)

theorem Ctx.Open.appended {is : List Inst} (h : s.Open) (ha : Appended s s' is) : s'.Open := by
  refine ⟨?_, ?_, ?_, ?_⟩
  · rw [ha.cur, ha.numBlocks]
    exact h.lt
  · rw [ha.cur, ha.block]
    exact h.terms
  · intro b hb
    rw [ha.numBlocks] at hb
    rw [ha.other b (Nat.ne_of_gt (Nat.lt_of_lt_of_le h.lt hb))]
    exact h.beyond b hb
  · intro o ho
    rw [ha.numBlocks]
    exact h.overflow o (ha.overflowBB ▸ ho)

theorem insert_appended {op : Opcode} {ty : Option LlvmTy} {id : Nat}
    (h : insert op args ty s = some (id, s')) :
    id = s.fresh ∧ Appended s s' [⟨s.fresh, op, args, ty⟩] := by
  cases h
  refine ⟨rfl, rfl, rfl, rfl, rfl, ?_, fun b hb => ?_⟩
  · dsimp only
    rw [Ctx.modifyBlock_blocks, if_pos rfl]
  · dsimp only
    rw [Ctx.modifyBlock_blocks, if_neg hb]

theorem emit_appended {op : Opcode} {ty : LlvmTy} {v : Value}
    (h : emit op args ty s = some (v, s')) :
    v = .inst s.fresh ty ∧ Appended s s' [⟨s.fresh, op, args, some ty⟩] := by
  obtain ⟨id, s₁, h₁, h₂⟩ := bind_eq_some.mp h
  cases pure_eq_some.mp h₂
  obtain ⟨rfl, happ⟩ := insert_appended h₁
  exact ⟨rfl, happ⟩

/-- What the overflow block adds to the context; only its PHI nodes may have been there. -/
structure HasOverflow (s s' : Ctx) (bb : Block) : Prop where
  cur : s'.cur = s.cur
  numBlocks : s.numBlocks ≤ s'.numBlocks
  overflowBB : s'.overflowBB = some bb
  lt : bb < s'.numBlocks
  source : s.overflowBB = some bb ∨ s.numBlocks ≤ bb
  insts : ∀ b < s.numBlocks, (s'.blocks b).insts = (s.blocks b).insts
  terms : ∀ b < s.numBlocks, (s'.blocks b).terms = (s.blocks b).terms
  other : ∀ b, b ≠ bb → s'.blocks b = s.blocks b

theorem createOverflowBB_spec {bb : Block} (h : s.Open)
    (hrun : createOverflowBB env s.cur s = some (bb, s')) : HasOverflow s s' bb := by
  unfold createOverflowBB at hrun
  obtain ⟨c, s₁, hget, hrun⟩ := bind_eq_some.mp hrun
  cases get_eq_some.mp hget
  cases hbb : s.overflowBB with
  | some o =>
    simp only [hbb] at hrun
    cases pure_eq_some.mp hrun
    exact ⟨rfl, Nat.le_refl _, hbb, h.overflow bb hbb, Or.inl hbb, fun _ _ => rfl,
      fun _ _ => rfl, fun _ _ => rfl⟩
  | none =>
    simp only [hbb] at hrun
    obtain ⟨o, s₁, h₁, hrun₁⟩ := bind_eq_some.mp hrun
    cases h₁
    obtain ⟨_, s₂, h₂, hrun₂⟩ := bind_eq_some.mp hrun₁
    cases h₂
    obtain ⟨_, s₃, h₃, hrun₃⟩ := bind_eq_some.mp hrun₂
    cases h₃
    obtain ⟨_, s₄, h₄, hrun₄⟩ := bind_eq_some.mp hrun₃
    obtain ⟨_, s₅, h₅, hrun₅⟩ := bind_eq_some.mp hrun₄
    obtain ⟨_, s₆, h₆, hrun₆⟩ := bind_eq_some.mp hrun₅
    cases h₆
    cases pure_eq_some.mp hrun₆
    have hs₄ := createPHIs_eq_some h₄
    obtain ⟨t, ht, hs₅⟩ := raiseOverflow_eq_some h₅
    have hcur₄ : s₄.cur = s.numBlocks := by rw [hs₄]; rfl
    -- Only the new block has changed.
    have hother : ∀ b, b ≠ s.numBlocks → s₅.blocks b = s.blocks b := by
      intro b hb
      rw [hs₅, Ctx.modifyBlock_blocks, hcur₄, if_neg hb, ht.other b (hcur₄ ▸ hb), hs₄,
        Ctx.modifyBlock_blocks, if_neg hb]
    have hnum : s₅.numBlocks = s.numBlocks + 1 := by
      rw [hs₅]
      exact ht.numBlocks.trans (by rw [hs₄]; rfl)
    have hov : s₅.overflowBB = some s.numBlocks := by
      rw [hs₅]
      exact ht.overflowBB.trans (by rw [hs₄]; rfl)
    refine ⟨rfl, ?_, hov, ?_, Or.inr (Nat.le_refl _), ?_, ?_, hother⟩
    · exact hnum ▸ Nat.le_succ _
    · exact hnum ▸ Nat.lt_succ_self _
    · exact fun b hb => congrArg BasicBlock.insts (hother b hb.ne)
    · exact fun b hb => congrArg BasicBlock.terms (hother b hb.ne)

theorem getOverflowBB_spec {bb : Block} (h : s.Open) (hrun : getOverflowBB env s = some (bb, s')) :
    HasOverflow s s' bb := by
  unfold getOverflowBB at hrun
  obtain ⟨src, s₁, h₁, hrun₁⟩ := bind_eq_some.mp hrun
  cases h₁
  obtain ⟨o, s₂, h₂, hrun₂⟩ := bind_eq_some.mp hrun₁
  obtain ⟨_, s₃, h₃, hrun₃⟩ := bind_eq_some.mp hrun₂
  cases pure_eq_some.mp hrun₃
  have hspec := createOverflowBB_spec h h₂
  obtain ⟨vals, -, hs₃⟩ := addOverflowIncoming_eq_some h₃
  subst hs₃
  -- The incoming values change PHI nodes of the overflow block.
  have hinsts (b : Block) : ((s₂.modifyBlock bb fun blk =>
      { blk with phis := feed s.cur vals 0 blk.phis }).blocks b).insts = (s₂.blocks b).insts := by
    rw [Ctx.modifyBlock_blocks]
    split <;> rename_i hb
    · rw [hb]
    · rfl
  have hterms (b : Block) : ((s₂.modifyBlock bb fun blk =>
      { blk with phis := feed s.cur vals 0 blk.phis }).blocks b).terms = (s₂.blocks b).terms := by
    rw [Ctx.modifyBlock_blocks]
    split <;> rename_i hb
    · rw [hb]
    · rfl
  refine ⟨hspec.cur, hspec.numBlocks, hspec.overflowBB, hspec.lt, hspec.source, ?_, ?_, ?_⟩
  · exact fun b hb => (hinsts b).trans (hspec.insts b hb)
  · exact fun b hb => (hterms b).trans (hspec.terms b hb)
  · intro b hb
    rw [Ctx.modifyBlock_blocks, if_neg hb]
    exact hspec.other b hb

/-- The instructions and the branch of an operation that is tested. -/
structure Tested (fn : Intrinsic) (sz : Nat) (args : List Value) (s s' : Ctx) (res : Value) :
    Prop where
  insts : (s'.blocks s.cur).insts = (s.blocks s.cur).insts ++
    [⟨s.fresh, .intrinsic fn (intrinsicTy .int sz), args, none⟩,
      ⟨s.fresh + 1, .extractValue s.fresh 0, [], some (intrinsicTy .int sz)⟩,
      ⟨s.fresh + 2, .extractValue s.fresh 1, [], none⟩]
  branch : ∃ bb, s'.overflowBB = some bb ∧ bb ≠ s'.cur ∧
    (s'.blocks s.cur).terms = [.condBr (s.fresh + 2) bb s'.cur]
  next : s'.blocks s'.cur = .empty
  isOpen : s'.Open
  result : res = .inst (s.fresh + 1) (intrinsicTy .int sz)

theorem arithWithOverflow_tested (h : s.Open)
    (hrun : arithWithOverflow env fn sz args s = some (res, s')) : Tested fn sz args s s' res := by
  unfold arithWithOverflow at hrun
  obtain ⟨pair, s₁, h₁, hrun₁⟩ := bind_eq_some.mp hrun
  obtain ⟨r, s₂, h₂, hrun₂⟩ := bind_eq_some.mp hrun₁
  obtain ⟨obit, s₃, h₃, hrun₃⟩ := bind_eq_some.mp hrun₂
  obtain ⟨next, s₄, h₄, hrun₄⟩ := bind_eq_some.mp hrun₃
  obtain ⟨bb, s₅, h₅, hrun₅⟩ := bind_eq_some.mp hrun₄
  obtain ⟨_, s₆, h₆, hrun₆⟩ := bind_eq_some.mp hrun₅
  obtain ⟨_, s₇, h₇, hrun₇⟩ := bind_eq_some.mp hrun₆
  cases pure_eq_some.mp hrun₇
  obtain ⟨rfl, happ₁⟩ := insert_appended h₁
  obtain ⟨rfl, happ₂⟩ := emit_appended h₂
  obtain ⟨rfl, happ₃⟩ := insert_appended h₃
  have hfresh₂ : s₂.fresh = s.fresh + 2 := by rw [happ₂.fresh, happ₁.fresh]; rfl
  have happ := (happ₁.trans happ₂).trans happ₃
  rw [hfresh₂, happ₁.fresh] at happ
  have hopen₃ := h.appended happ
  have hs₄ : s₄ = { s₃ with numBlocks := s.numBlocks + 1 } := by
    rw [← happ.numBlocks]
    cases h₄
    rfl
  have hnext : next = s.numBlocks := by
    rw [← happ.numBlocks]
    cases h₄
    rfl
  have hopen₄ : s₄.Open := by
    rw [hs₄]
    refine ⟨?_, hopen₃.terms, fun b hb => ?_, fun o ho => ?_⟩
    · exact Nat.lt_succ_of_lt (happ.cur ▸ h.lt)
    · exact hopen₃.beyond b (happ.numBlocks ▸ Nat.le_of_succ_le hb)
    · exact Nat.lt_succ_of_lt (happ.numBlocks ▸ hopen₃.overflow o ho)
  have hspec := getOverflowBB_spec hopen₄ h₅
  rw [hs₄] at hspec
  have hcur₅ : s₅.cur = s.cur := hspec.cur.trans happ.cur
  have hlt : s.cur < s.numBlocks + 1 := Nat.lt_succ_of_lt h.lt
  have hne : s.cur ≠ s.numBlocks := h.lt.ne
  have hbb : bb ≠ s.numBlocks := by
    rcases hspec.source with hold | hnew
    · exact (h.overflow bb (happ.overflowBB ▸ hold)).ne
    · exact Nat.ne_of_gt hnew
  have hs' : s' = { s₅.modifyBlock s.cur fun blk =>
      { blk with terms := blk.terms ++ [.condBr (s.fresh + 2) bb s.numBlocks] } with
        cur := s.numBlocks } := by
    rw [← hcur₅, ← hfresh₂, ← hnext]
    cases h₇
    cases h₆
    rfl
  have hlater : s.numBlocks < s₅.numBlocks := hspec.numBlocks
  have hempty : ∀ b, b ≠ s.cur → b ≠ bb → s.numBlocks ≤ b → s₅.blocks b = .empty := by
    intro b hcur hb hle
    rw [hspec.other b hb]
    exact (happ.other b hcur).trans (h.beyond b hle)
  subst hs'
  refine ⟨?_, ⟨bb, hspec.overflowBB, hbb, ?_⟩, ?_, ⟨hlater, ?_, ?_, ?_⟩, ?_⟩
  · dsimp only
    rw [Ctx.modifyBlock_blocks, if_pos rfl]
    rw [hspec.insts s.cur hlt]
    rw [happ.block]
    rfl
  · dsimp only
    rw [Ctx.modifyBlock_blocks, if_pos rfl]
    rw [hspec.terms s.cur hlt]
    rw [happ.block, h.terms]
    rfl
  · dsimp only
    rw [Ctx.modifyBlock_blocks, if_neg hne.symm]
    exact hempty _ hne.symm hbb.symm (Nat.le_refl _)
  · dsimp only
    rw [Ctx.modifyBlock_blocks, if_neg hne.symm, hempty _ hne.symm hbb.symm (Nat.le_refl _)]
    rfl
  · intro b hb
    have hb' : s₅.numBlocks ≤ b := hb
    have hcur : b ≠ s.cur := Nat.ne_of_gt (Nat.lt_of_lt_of_le (h.lt.trans hlater) hb')
    rw [Ctx.modifyBlock_blocks, if_neg hcur]
    exact hempty b hcur (Nat.ne_of_gt (Nat.lt_of_lt_of_le hspec.lt hb'))
      (Nat.le_trans (Nat.le_of_lt hlater) hb')
  · intro o ho
    cases Option.some.inj (hspec.overflowBB.symm.trans ho)
    exact hspec.lt
  · rw [happ₁.fresh]
    rfl

theorem Tested.runEmitted {target : TargetInfo} (h : Tested fn sz args s s' res) {r : BitVec sz}
    {o : Bool} (hargs : args.mapM (ρ.eval target) = some [.int sz a, .int sz b])
    (hty : typeBits target (intrinsicTy .int sz) = some sz)
    (heval : fn.eval a b = some (.pair sz r o)) :
    ∃ ρ' bb, s'.overflowBB = some bb ∧ bb ≠ s'.cur ∧ ρ'.eval target res = some (.int sz r) ∧
      runEmitted target s s' ρ = .enters (if o then bb else s'.cur) ρ' := by
  obtain ⟨bb, hov, hne, hterms⟩ := h.branch
  refine ⟨((ρ.set s.fresh (.pair sz r o)).set (s.fresh + 1) (.int sz r)).set (s.fresh + 2) (.bit o),
    bb, hov, hne, ?_, ?_⟩
  · rw [h.result]
    simp [Locals.eval, Locals.set]
  · unfold Builder.runEmitted runFrom
    rw [h.insts, hterms, List.drop_left]
    simp [execInst, hargs, Opcode.eval, hty, heval, Locals.set, Terminator.exit]

theorem tested_trapsExactly {target : TargetInfo} (hfn : oper.intrinsic = some fn)
    (h : Tested fn sz args s s' res)
    (hargs : args.mapM (ρ.eval target) = some [.int sz a, .int sz b])
    (hty : typeBits target (intrinsicTy .int sz) = some sz) :
    TrapsExactly target oper a b s s' res ρ := by
  obtain ⟨r, o, heval, hover, hexact⟩ := intrinsic_spec hfn a b
  obtain ⟨ρ', bb, hov, hne, hres, hexit⟩ := h.runEmitted hargs hty heval
  unfold TrapsExactly
  by_cases ho : o = true
  · rw [if_pos ho] at hexit
    rw [if_neg (hover.mp ho)]
    refine ⟨⟨bb, ρ', hov, hexit⟩, ?_⟩
    rintro ρ'' (⟨hfalls, -⟩ | ⟨henters, -⟩)
    · rw [hexit] at hfalls
      cases hfalls
    · rw [hexit] at henters
      exact hne (Exit.enters.inj henters).1
  · rw [if_neg ho] at hexit
    rw [if_pos (not_not.mp fun hfits => ho (hover.mpr hfits))]
    refine ⟨⟨ρ', r, Or.inr ⟨hexit, h.next⟩, hres, hexact ho⟩, ?_⟩
    rintro ⟨bb', ρ'', hov', henters⟩
    rw [hexit] at henters
    rw [hov] at hov'
    exact hne ((Option.some.inj hov').trans (Exit.enters.inj henters).1.symm)

/-! ## Divisions -/

theorem asInt_asIntSz (sz : Nat) (v : Value) : asInt env (asIntSz sz v) = asIntSz sz v := by
  refine if_neg ?_
  unfold asIntSz iType
  by_cases hptr : v.ty = mlValueTy
  · rw [if_pos hptr]
    show ¬LlvmTy.isPointerTy (if sz = 64 then _ else _) = true
    split_ifs <;> decide
  · rw [if_neg hptr]
    intro hpointer
    apply hptr
    cases hty : v.ty with
    | ptr => rfl
    | i8 | i16 | i32 | i64 | f32 | f64 =>
      rw [hty] at hpointer
      cases hpointer

theorem createBinOp_runEmitted {x y : Value} (h : s.Open)
    (hrun : createBinOp env op (asIntSz sz x) (asIntSz sz y) s = some (res, s'))
    (hx : ρ.eval env.target (asIntSz sz x) = some (.int sz a))
    (hy : ρ.eval env.target (asIntSz sz y) = some (.int sz b)) :
    s'.cur = s.cur ∧
      match op.eval a b with
      | none => runEmitted env.target s s' ρ = .undefined
      | some r => ∃ ρ', runEmitted env.target s s' ρ = .falls ρ' ∧
          ρ'.eval env.target res = some (.int sz r) := by
  unfold createBinOp at hrun
  rw [asInt_asIntSz, asInt_asIntSz] at hrun
  obtain ⟨rfl, happ⟩ := emit_appended hrun
  refine ⟨happ.cur, ?_⟩
  unfold runEmitted runFrom
  rw [happ.block]
  rw [List.drop_left, h.terms]
  cases heval : op.eval a b with
  | none => simp [execInst, hx, hy, Opcode.eval, heval]
  | some r => simp [execInst, hx, hy, Opcode.eval, heval, Locals.set, Locals.eval]

def ArithOp.division : ArithOp → Option BinOp
  | idiv => some .sdiv
  | irem => some .srem
  | iadd => none
  | isub => none
  | imul => none

theorem fits_toInt (r : BitVec sz) : Fits sz r.toInt := ⟨r.le_toInt, r.toInt_lt⟩

theorem division_spec (h : oper.division = some op) (hzero : b ≠ 0) :
    match op.eval a b with
    | none => a = BitVec.intMin sz ∧ b = -1
    | some r => ¬(a = BitVec.intMin sz ∧ b = -1) ∧ r.toInt = oper.exact a.toInt b.toInt := by
  have hundefined : (b = 0 ∨ a = BitVec.intMin sz ∧ b = -1) ↔ a = BitVec.intMin sz ∧ b = -1 :=
    or_iff_right hzero
  cases oper with
  | iadd => cases h
  | isub => cases h
  | imul => cases h
  | idiv =>
    cases h
    simp only [BinOp.eval, hundefined]
    by_cases hpair : a = BitVec.intMin sz ∧ b = -1
    · rw [if_pos hpair]
      exact hpair
    · rw [if_neg hpair]
      refine ⟨hpair, BitVec.toInt_sdiv_of_ne_or_ne a b ?_⟩
      exact not_and_or.mp hpair
  | irem =>
    cases h
    simp only [BinOp.eval, hundefined]
    by_cases hpair : a = BitVec.intMin sz ∧ b = -1
    · rw [if_pos hpair]
      exact hpair
    · rw [if_neg hpair]
      exact ⟨hpair, BitVec.toInt_srem a b⟩

theorem division_trapsExactly_iff (hop : oper.division = some op) {x y : Value} (h : s.Open)
    (hrun : createBinOp env op (asIntSz sz x) (asIntSz sz y) s = some (res, s'))
    (hx : ρ.eval env.target (asIntSz sz x) = some (.int sz a))
    (hy : ρ.eval env.target (asIntSz sz y) = some (.int sz b)) (hzero : b ≠ 0) :
    TrapsExactly env.target oper a b s s' res ρ ↔ ¬(a = BitVec.intMin sz ∧ b = -1) := by
  obtain ⟨hcur, hexit⟩ := createBinOp_runEmitted h hrun hx hy
  have hspec := division_spec hop hzero (a := a)
  unfold TrapsExactly
  cases heval : op.eval a b with
  | none =>
    rw [heval] at hexit hspec
    refine iff_of_false ?_ (not_not.mpr hspec)
    intro htraps
    split at htraps
    · obtain ⟨⟨ρ', r, hgoes, -⟩, -⟩ := htraps
      rcases hgoes with ⟨hfalls, -⟩ | ⟨henters, -⟩
      · rw [hexit] at hfalls
        cases hfalls
      · rw [hexit] at henters
        cases henters
    · obtain ⟨⟨bb, ρ', -, henters⟩, -⟩ := htraps
      rw [hexit] at henters
      cases henters
  | some r =>
    rw [heval] at hexit hspec
    obtain ⟨ρ', hfalls, hres⟩ := hexit
    obtain ⟨hdefined, hexact⟩ := hspec
    refine iff_of_true ?_ hdefined
    rw [if_pos (hexact ▸ fits_toInt r)]
    refine ⟨⟨ρ', r, Or.inl ⟨hfalls, hcur⟩, hres, hexact⟩, ?_⟩
    rintro ⟨bb, ρ'', -, henters⟩
    rw [hfalls] at henters
    cases henters

/-- Trapping arithmetic is exact or branches, except for the division that overflows. -/
theorem arith_trapsExactly_iff {s s' : Ctx} {x y res : Value} {ρ : Locals} {oper : ArithOp}
    {sz : Nat} {a b : BitVec sz} (h : s.Open) (hsz : sz = 32 ∨ sz = 64)
    (hx : ρ.eval env.target (asIntSz sz x) = some (.int sz a))
    (hy : ρ.eval env.target (asIntSz sz y) = some (.int sz b))
    (hzero : oper.divides = true → b ≠ 0)
    (hrun : (Arith.arith oper sz).codegen env [x, y] s = some (res, s')) :
    TrapsExactly env.target oper a b s s' res ρ ↔
      ¬(oper.divides = true ∧ a = BitVec.intMin sz ∧ b = -1) := by
  have hty : typeBits env.target (intrinsicTy .int sz) = some sz := by
    rcases hsz with rfl | rfl <;> rfl
  have hargs : [asIntSz sz x, asIntSz sz y].mapM (ρ.eval env.target) =
      some [.int sz a, .int sz b] := by
    simp [hx, hy]
  have htested {fn : Intrinsic} (hfn : oper.intrinsic = some fn) (hdivides : oper.divides = false)
      (hrun : arithWithOverflow env fn sz [asIntSz sz x, asIntSz sz y] s = some (res, s')) :
      TrapsExactly env.target oper a b s s' res ρ ↔
        ¬(oper.divides = true ∧ a = BitVec.intMin sz ∧ b = -1) := by
    refine iff_of_true ?_ ?_
    · exact tested_trapsExactly hfn (arithWithOverflow_tested h hrun) hargs hty
    · rw [hdivides]
      exact fun hboth => Bool.false_ne_true hboth.1
  have hdivision {op : BinOp} (hop : oper.division = some op) (hdivides : oper.divides = true)
      (hrun : createBinOp env op (asIntSz sz x) (asIntSz sz y) s = some (res, s')) :
      TrapsExactly env.target oper a b s s' res ρ ↔
        ¬(oper.divides = true ∧ a = BitVec.intMin sz ∧ b = -1) := by
    rw [and_iff_right hdivides]
    exact division_trapsExactly_iff hop h hrun hx hy (hzero hdivides)
  cases oper with
  | iadd => exact htested rfl rfl hrun
  | isub => exact htested rfl rfl hrun
  | imul => exact htested rfl rfl hrun
  | idiv => exact hdivision rfl rfl hrun
  | irem => exact hdivision rfl rfl hrun

def firstBlock : Ctx :=
  { beginCluster ⟨none, fun _ => some (.arg 0 .ptr)⟩ with numBlocks := 1 }

theorem firstBlock_open : firstBlock.Open :=
  ⟨Nat.one_pos, rfl, fun _ _ => rfl, fun _ hbb => by cases hbb⟩

def leafCluster : Env := ⟨arm64Info, ⟨false⟩, [.ptr], fun _ => none⟩

theorem add_goes_on :
    ∃ res s', (Arith.arith .iadd 32).codegen leafCluster [.const 2 .i32, .const 3 .i32] firstBlock =
        some (res, s') ∧
      TrapsExactly arm64Info .iadd (2 : BitVec 32) 3 firstBlock s' res
        ⟨fun _ => none, fun _ => none⟩ := by
  have hsome : ((Arith.arith .iadd 32).codegen leafCluster [.const 2 .i32, .const 3 .i32]
      firstBlock).isSome = true := by decide +kernel
  obtain ⟨⟨res, s'⟩, hrun⟩ := Option.isSome_iff_exists.mp hsome
  refine ⟨res, s', hrun, ?_⟩
  refine (arith_trapsExactly_iff firstBlock_open (Or.inl rfl) rfl rfl ?_ hrun).mpr ?_
  · exact fun hdivides => Bool.noConfusion hdivides
  · exact fun hboth => Bool.noConfusion hboth.1

/-- The least number divided by minus one has no defined result. -/
theorem least_by_minus_one :
    ∃ res s', (Arith.arith .idiv 64).codegen leafCluster
        [.const (-2 ^ 63) .i64, .const (-1) .i64] firstBlock = some (res, s') ∧
      runEmitted arm64Info firstBlock s' ⟨fun _ => none, fun _ => none⟩ = .undefined ∧
      ¬TrapsExactly arm64Info .idiv (BitVec.intMin 64) (-1) firstBlock s' res
        ⟨fun _ => none, fun _ => none⟩ := by
  obtain ⟨res, s', hrun⟩ : ∃ res s', (Arith.arith .idiv 64).codegen leafCluster
      [.const (-2 ^ 63) .i64, .const (-1) .i64] firstBlock = some (res, s') := ⟨_, _, rfl⟩
  have hx : Locals.eval arm64Info ⟨fun _ => none, fun _ => none⟩ (.const (-2 ^ 63) .i64) =
      some (.int 64 (BitVec.intMin 64)) := rfl
  have hy : Locals.eval arm64Info ⟨fun _ => none, fun _ => none⟩ (.const (-1) .i64) =
      some (.int 64 (-1)) := rfl
  refine ⟨res, s', hrun, ?_, ?_⟩
  · exact (createBinOp_runEmitted firstBlock_open hrun hx hy).2
  · have hop : ArithOp.idiv.division = some .sdiv := rfl
    have hiff := division_trapsExactly_iff hop firstBlock_open hrun hx hy (by decide)
    exact fun htraps => hiff.mp htraps ⟨rfl, rfl⟩

end SmlnjLlvm.Codegen.Builder
