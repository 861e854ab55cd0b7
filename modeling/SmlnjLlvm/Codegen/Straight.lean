import SmlnjLlvm.Codegen.Context

/-!
# Straight-line code

Most of code generation appends to the current block. Such code moves no edge
and no PHI node; it changes the registers by the assignments that it records.
-/

namespace SmlnjLlvm.Codegen

/-- The registers that are passed, each with its value. -/
abbrev Regs (target : TargetInfo) (α : Type) := { r : CMRegId // target.isMachineReg r } → Option α

variable {target : TargetInfo} {α β : Type}

def CMRegState.regs (target : TargetInfo) (st : CMRegState α) : Regs target α := fun r => st.get r.1

/-- The registers after a list of assignments. -/
def applyAssigns (assigns : List (CMRegId × α)) (rs : Regs target α) : Regs target α :=
  assigns.foldl (fun rs a r => if r.1 = a.1 then some a.2 else rs r) rs

@[simp] theorem applyAssigns_nil (rs : Regs target α) : applyAssigns [] rs = rs := rfl

theorem applyAssigns_append (as bs : List (CMRegId × α)) (rs : Regs target α) :
    applyAssigns (as ++ bs) rs = applyAssigns bs (applyAssigns as rs) :=
  List.foldl_append

theorem CMRegState.regs_set (st : CMRegState α) (r : CMRegId) (v : α) :
    (st.set r (some v)).regs target = applyAssigns [(r, v)] (st.regs target) := by
  funext r'
  by_cases h : r'.1 = r
  · simp [CMRegState.regs, applyAssigns, h]
  · simp [CMRegState.regs, applyAssigns, h, CMRegState.get_set_of_ne _ _ h]

namespace Builder

open PartialState

/-- What straight-line code may change; `mode` is false for code that assigns to no register. -/
structure Straight (target : TargetInfo) (mode : Bool) (s s' : Ctx) : Prop where
  cur : s'.cur = s.cur
  numBlocks : s'.numBlocks = s.numBlocks
  overflowBB : s'.overflowBB = s.overflowBB
  fragMap : s'.fragMap = s.fragMap
  other : ∀ b, b ≠ s.cur → s'.blocks b = s.blocks b
  phis : (s'.blocks s.cur).phis = (s.blocks s.cur).phis
  terms : (s'.blocks s.cur).terms = (s.blocks s.cur).terms
  assigns : ∃ log, (mode = false → log = []) ∧
    (s'.blocks s.cur).assigns = (s.blocks s.cur).assigns ++ log ∧
    s'.regState.regs target = applyAssigns log (s.regState.regs target)

variable {mode : Bool}

namespace Straight

theorem refl (s : Ctx) : Straight target mode s s :=
  ⟨rfl, rfl, rfl, rfl, fun _ _ => rfl, rfl, rfl, [], fun _ => rfl, by simp, rfl⟩

theorem trans (s₁ s₂ s₃ : Ctx) (h : Straight target mode s₁ s₂) (h' : Straight target mode s₂ s₃) :
    Straight target mode s₁ s₃ := by
  obtain ⟨log, hmode, hlog, hregs⟩ := h.assigns
  obtain ⟨log', hmode', hlog', hregs'⟩ := h'.assigns
  have hother := h'.other
  have hphis := h'.phis
  have hterms := h'.terms
  rw [h.cur] at hother hphis hterms hlog'
  refine ⟨h'.cur.trans h.cur, h'.numBlocks.trans h.numBlocks, h'.overflowBB.trans h.overflowBB,
    h'.fragMap.trans h.fragMap, ?_, hphis.trans h.phis, hterms.trans h.terms, log ++ log', ?_, ?_, ?_⟩
  · intro b hb
    rw [hother b hb, h.other b hb]
  · intro hm
    rw [hmode hm, hmode' hm, List.append_nil]
  · rw [hlog', hlog, List.append_assoc]
  · rw [hregs', hregs, applyAssigns_append]

theorem modifyInsts (s : Ctx) (f : List Inst → List Inst) (n : Nat) :
    Straight target mode s { s.modifyBlock s.cur fun blk => { blk with insts := f blk.insts } with
      fresh := n } where
  cur := rfl
  numBlocks := rfl
  overflowBB := rfl
  fragMap := rfl
  other _ hb := Function.update_of_ne hb _ _
  phis := by simp [Ctx.modifyBlock]
  terms := by simp [Ctx.modifyBlock]
  assigns := ⟨[], fun _ => rfl, by simp [Ctx.modifyBlock], rfl⟩

end Straight

/-- Every completed run is straight-line code. -/
abbrev StraightLine (target : TargetInfo) (mode : Bool) (m : Gen α) : Prop :=
  Moves (Straight target mode) m

namespace StraightLine

theorem pure (a : α) : StraightLine target mode (Pure.pure a : Gen α) := Moves.pure Straight.refl a

theorem failure : StraightLine target mode (failure : Gen α) := Moves.failure

theorem get : StraightLine target mode (MonadState.get : Gen Ctx) := Moves.get Straight.refl

theorem bind {m : Gen α} {f : α → Gen β} (hm : StraightLine target mode m)
    (hf : ∀ a, StraightLine target mode (f a)) : StraightLine target mode (m >>= f) :=
  Moves.bind Straight.trans hm hf

theorem read (f : Ctx → Option α) : StraightLine target mode (fun s => (f s).map fun a => (a, s) : Gen α) := by
  intro s a s' h
  obtain ⟨b, -, hb⟩ := Option.map_eq_some_iff.mp h
  cases hb
  exact Straight.refl s

theorem ofOption (o : Option α) : StraightLine target mode (Builder.ofOption o) := read fun _ => o

theorem require (p : Bool) : StraightLine target mode (Builder.require p) := ofOption _

theorem lookupVal (lv : Lvar) : StraightLine target mode (Builder.lookupVal lv) := read _

theorem insertVal (lv : Lvar) (v : Value) : StraightLine target mode (Builder.insertVal lv v) := by
  intro s a s' h
  unfold Builder.insertVal at h
  split at h
  · cases h
    exact ⟨rfl, rfl, rfl, rfl, fun _ _ => rfl, rfl, rfl, [], fun _ => rfl, by simp, rfl⟩
  · cases h
    exact Straight.refl s

theorem insert (op : Opcode) (args : List Value) (ty : Option LlvmTy) :
    StraightLine target mode (Builder.insert op args ty) := by
  intro s a s' h
  cases h
  exact Straight.modifyInsts s (fun insts => insts ++ [⟨s.fresh, op, args, ty⟩]) (s.fresh + 1)

theorem emit (op : Opcode) (args : List Value) (ty : LlvmTy) :
    StraightLine target mode (Builder.emit op args ty) :=
  bind (insert op args _) fun _ => pure _

theorem asPtr (v : Value) : StraightLine target mode (Builder.asPtr v) := by
  unfold Builder.asPtr
  split
  · exact pure _
  · split
    · exact pure _
    · exact failure

theorem castTy (srcTy tgtTy : LlvmTy) (v : Value) :
    StraightLine target mode (Builder.castTy srcTy tgtTy v) := by
  unfold Builder.castTy
  split
  · exact pure _
  · split
    · exact pure _
    · exact failure

theorem createGEP (base idx : Value) : StraightLine target mode (Builder.createGEP base idx) := emit _ _ _

theorem createElemGEP (elemTy : LlvmTy) (base idx : Value) :
    StraightLine target mode (Builder.createElemGEP elemTy base idx) :=
  bind (asPtr base) fun _ => emit _ _ _

theorem createLoad (ty : LlvmTy) (adr : Value) (align : Nat) :
    StraightLine target mode (Builder.createLoad ty adr align) := emit _ _ _

theorem createStore (v adr : Value) (align : Nat) :
    StraightLine target mode (Builder.createStore v adr align) :=
  bind (insert _ _ _) fun _ => pure _

variable (env : Env)

theorem createStoreML (v adr : Value) : StraightLine target mode (Builder.createStoreML env v adr) :=
  bind (asPtr v) fun _ => bind (asPtr adr) fun _ => createStore _ _ _

theorem createStoreInt (v adr : Value) : StraightLine target mode (Builder.createStoreInt env v adr) :=
  bind (asPtr adr) fun _ => createStore _ _ _

theorem createBinOp (op : BinOp) (a b : Value) :
    StraightLine target mode (Builder.createBinOp env op a b) := emit _ _ _

theorem createICmp (pred : ICmpPred) (a b : Value) :
    StraightLine target mode (Builder.createICmp env pred a b) := insert _ _ _

theorem stkAddr (offset : Nat) : StraightLine target mode (Builder.stkAddr env offset) :=
  bind (emit _ _ _) fun _ => bind (createBinOp env _ _ _) fun _ => pure _

theorem loadFromStack (offset : Nat) : StraightLine target mode (Builder.loadFromStack env offset) :=
  bind (stkAddr env offset) fun _ => createLoad _ _ _

theorem mlReg (r : CMRegId) : StraightLine target mode (Builder.mlReg env r) := by
  unfold Builder.mlReg
  refine bind get fun s => ?_
  split
  · exact loadFromStack env _
  · exact pure _

theorem assignReg (r : CMRegId) (v : Value) : StraightLine target true (Builder.assignReg r v) := by
  intro s a s' h
  cases h
  exact {
    cur := rfl
    numBlocks := rfl
    overflowBB := rfl
    fragMap := rfl
    other := fun _ hb => Function.update_of_ne hb _ _
    phis := by simp [Ctx.modifyBlock]
    terms := by simp [Ctx.modifyBlock]
    assigns := ⟨[(r, v)], fun h => (by cases h), by simp [Ctx.modifyBlock], s.regState.regs_set r v⟩ }

theorem setMLReg (r : CMRegId) (v : Value) : StraightLine target true (Builder.setMLReg env r v) := by
  unfold Builder.setMLReg
  refine bind get fun s => ?_
  split
  · exact bind (stkAddr env _) fun _ => createStore _ _ _
  · exact assignReg r v

theorem createArgList (kind : FragKind) : StraightLine target mode (Builder.createArgList env kind) :=
  read _

end StraightLine

end Builder

end SmlnjLlvm.Codegen
