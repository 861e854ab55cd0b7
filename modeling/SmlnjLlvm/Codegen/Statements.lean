import SmlnjLlvm.Codegen.Feed

/-!
# Statements keep the invariant

Expressions and operations continue in an open block. A statement closes its
block together with the blocks of the arms inside it.
-/

namespace SmlnjLlvm.Codegen.Builder

open PartialState Threading

mutual

/-- The blocks of all arms inside a statement. -/
def Stm.arms : Stm → List Block
  | .letS _ _ _ k => k.arms
  | .alloc _ _ _ _ k => k.arms
  | .apply .. => []
  | .throw .. => []
  | .goto .. => []
  | .switch _ _ arms => Stm.heads arms ++ Stm.armsAll arms
  | .branch _ _ _ k₁ k₂ => (k₁.bb.toList ++ k₂.bb.toList) ++ (k₁.arms ++ k₂.arms)
  | .arith _ _ _ _ k => k.arms
  | .setter _ _ _ k => k.arms
  | .callGC _ _ _ k => k.arms
  | .rcc _ k => k.arms

def Stm.heads : List Stm → List Block
  | [] => []
  | arm :: arms => arm.bb.toList ++ Stm.heads arms

def Stm.armsAll : List Stm → List Block
  | [] => []
  | arm :: arms => arm.arms ++ Stm.armsAll arms

end

mutual

/-- The jumps inside a statement, with the number of arguments of each. -/
def Stm.gotos : Stm → List (Lvar × Nat)
  | .letS _ _ _ k => k.gotos
  | .alloc _ _ _ _ k => k.gotos
  | .apply .. => []
  | .throw .. => []
  | .goto _ lab args => [(lab, args.length)]
  | .switch _ _ arms => Stm.gotosAll arms
  | .branch _ _ _ k₁ k₂ => k₁.gotos ++ k₂.gotos
  | .arith _ _ _ _ k => k.gotos
  | .setter _ _ _ k => k.gotos
  | .callGC _ _ _ k => k.gotos
  | .rcc _ k => k.gotos

def Stm.gotosAll : List Stm → List (Lvar × Nat)
  | [] => []
  | arm :: arms => arm.gotos ++ Stm.gotosAll arms

end

section Run

variable (env : Env) (entry : Block) (K : Block → Nat → Prop)

/-- Every jump to a fragment passes an argument for each PHI node that `K` tells. -/
def Feeds (fragMap : Lvar → Option FragRef) (gotos : List (Lvar × Nat)) : Prop :=
  ∀ g ∈ gotos, ∀ frag, fragMap g.1 = some frag → ∀ i, K frag.bb i → i < numExtraArgs env + g.2

/-- Code that keeps the invariant and goes on in an open block. -/
def Continues {α : Type} (m : Gen α) : Prop :=
  ∀ s G p q a s', Inv env.target entry K s G p q → At env.target s G p q → m s = some (a, s') →
    ∃ G', Inv env.target entry K s' G' p q ∧ At env.target s' G' p q ∧ Frame s s' ∧
      ∀ b < s.numBlocks, G' b = G b

/-- Code that closes the current block and generates the pending blocks `arms`. -/
def Finishes (arms : List Block) (gotos : List (Lvar × Nat)) (m : Gen Unit) : Prop :=
  ∀ s G p q u s', Inv env.target entry K s G (arms ++ p) q → At env.target s G (arms ++ p) q →
    Feeds env K s.fragMap gotos → m s = some (u, s') →
    ∃ G', Inv env.target entry K s' G' p q ∧ Frame s s' ∧
      ∀ b < s.numBlocks, b ∉ arms → G' b = G b

variable {env entry K} {α β : Type}

theorem StraightLine.continues {m : Gen α} (h : StraightLine env.target true m) :
    Continues env entry K m := by
  intro s G p q a s' hinv hat hrun
  have hs := h s a s' hrun
  obtain ⟨hinv', hat'⟩ := hinv.straight hat hs
  exact ⟨G, hinv', hat', hs.frame, fun _ _ => rfl⟩

theorem Continues.bind {m : Gen α} {f : α → Gen β} (hm : Continues env entry K m)
    (hf : ∀ a, Continues env entry K (f a)) : Continues env entry K (m >>= f) := by
  intro s G p q b s' hinv hat hrun
  obtain ⟨a, s₁, h₁, h₂⟩ := bind_eq_some.mp hrun
  obtain ⟨G₁, hinv₁, hat₁, hframe₁, heq₁⟩ := hm s G p q a s₁ hinv hat h₁
  obtain ⟨G₂, hinv₂, hat₂, hframe₂, heq₂⟩ := hf a s₁ G₁ p q b s' hinv₁ hat₁ h₂
  refine ⟨G₂, hinv₂, hat₂, hframe₁.trans hframe₂, ?_⟩
  intro c hc
  rw [heq₂ c (Nat.lt_of_lt_of_le hc hframe₁.numBlocks), heq₁ c hc]

theorem Finishes.bind {m : Gen α} {f : α → Gen Unit} {arms : List Block}
    {gotos : List (Lvar × Nat)} (hm : Continues env entry K m)
    (hf : ∀ a, Finishes env entry K arms gotos (f a)) :
    Finishes env entry K arms gotos (m >>= f) := by
  intro s G p q u s' hinv hat hfeeds hrun
  obtain ⟨a, s₁, h₁, h₂⟩ := bind_eq_some.mp hrun
  obtain ⟨G₁, hinv₁, hat₁, hframe₁, heq₁⟩ := hm s G _ q a s₁ hinv hat h₁
  rw [← hframe₁.fragMap] at hfeeds
  obtain ⟨G₂, hinv₂, hframe₂, heq₂⟩ := hf a s₁ G₁ p q u s' hinv₁ hat₁ hfeeds h₂
  refine ⟨G₂, hinv₂, hframe₁.trans hframe₂, ?_⟩
  intro c hc hcarms
  rw [heq₂ c (Nat.lt_of_lt_of_le hc hframe₁.numBlocks) hcarms, heq₁ c hc]

/-! ## Trapping arithmetic -/

theorem createPHIs_eq_some {tys : List LlvmTy} {s s' : Ctx} {u : Unit}
    (h : createPHIs tys s = some (u, s')) :
    s' = s.modifyBlock s.cur fun blk =>
      { blk with phis := blk.phis ++ tys.map fun ty => ⟨ty, []⟩ } := by
  induction tys generalizing s with
  | nil =>
    cases pure_eq_some.mp h
    simp [Ctx.modifyBlock]
  | cons ty tys ih =>
    obtain ⟨w, s₁, h₁, h₂⟩ := bind_eq_some.mp h
    cases h₁
    rw [ih h₂]
    simp [Ctx.modifyBlock]

theorem raiseOverflow_eq_some {bb : Block} {s s' : Ctx} {u : Unit}
    (h : raiseOverflow env bb s = some (u, s')) :
    ∃ s₁, Straight env.target false s s₁ ∧
      s' = s₁.modifyBlock s.cur fun blk => { blk with terms := blk.terms ++ [.retVoid] } := by
  unfold raiseOverflow at h
  obtain ⟨fn, s₁, h₁, h₂⟩ := bind_eq_some.mp h
  obtain ⟨id, s₂, h₃, h₄⟩ := bind_eq_some.mp h₂
  have hs₁ : Straight env.target false s s₁ := StraightLine.loadFromStack env _ s fn s₁ h₁
  have hs₂ : Straight env.target false s₁ s₂ := StraightLine.insert _ _ _ s₁ id s₂ h₃
  have hs := Straight.trans s s₁ s₂ hs₁ hs₂
  refine ⟨s₂, hs, ?_⟩
  cases h₄
  rw [hs.cur]

theorem createOverflowBB_step {s s' : Ctx} {G : Block → Regs env.target Value} {p q : List Block}
    {o : Block} (hinv : Inv env.target entry K s G p q) (hat : At env.target s G p q)
    (hrun : createOverflowBB env s.cur s = some (o, s')) :
    ∃ G', Inv env.target entry K s' G' p q ∧ At env.target s' G' p q ∧ Frame s s' ∧
      (∀ b < s.numBlocks, G' b = G b) ∧ s'.overflowBB = some o ∧ s'.cur = s.cur := by
  unfold createOverflowBB at hrun
  obtain ⟨c, s₁, hget, hrun⟩ := bind_eq_some.mp hrun
  cases get_eq_some.mp hget
  cases hbb : s.overflowBB with
  | some bb =>
    simp only [hbb] at hrun
    cases pure_eq_some.mp hrun
    exact ⟨G, hinv, hat, Frame.refl s, fun _ _ => rfl, hbb, rfl⟩
  | none =>
    simp only [hbb] at hrun
    obtain ⟨bb, s₁, h₁, hrun₁⟩ := bind_eq_some.mp hrun
    cases h₁
    obtain ⟨_, s₂, h₂, hrun₂⟩ := bind_eq_some.mp hrun₁
    cases h₂
    obtain ⟨_, s₃, h₃, hrun₃⟩ := bind_eq_some.mp hrun₂
    cases h₃
    obtain ⟨_, s₄, h₄, hrun₄⟩ := bind_eq_some.mp hrun₃
    obtain ⟨_, s₅, h₅, hrun₅⟩ := bind_eq_some.mp hrun₄
    obtain ⟨_, s₆, h₆, hrun₆⟩ := bind_eq_some.mp hrun₅
    cases h₆
    cases pure_eq_some.mp hrun₆
    have hs₄ := createPHIs_eq_some h₄
    obtain ⟨t, ht, hs₅⟩ := raiseOverflow_eq_some h₅
    have hcur₄ : s₄.cur = s.numBlocks := by rw [hs₄]; rfl
    have hbeyond := hinv.beyond s.numBlocks (Nat.le_refl _)
    have hother : ∀ b, b ≠ s.numBlocks → s₅.blocks b = s.blocks b := by
      intro b hb
      rw [hs₅, Ctx.modifyBlock_blocks, hcur₄, if_neg hb, ht.other b (hcur₄ ▸ hb), hs₄,
        Ctx.modifyBlock_blocks, if_neg hb]
    have hphis : (s₅.blocks s.numBlocks).phis =
        List.replicate env.target.numMachineRegs ⟨.ptr, []⟩ := by
      rw [hs₅, Ctx.modifyBlock_blocks, hcur₄, if_pos rfl, ht.phis_eq, hs₄,
        Ctx.modifyBlock_blocks, if_pos rfl]
      simp [hbeyond.1]
    have hsuccs : s₅.succs s.numBlocks = [] := by
      have hout : t.succs s.numBlocks = s.succs s.numBlocks := by
        rw [ht.succs]
        unfold Ctx.succs
        rw [hs₄, Ctx.modifyBlock_blocks, if_pos rfl]
      rw [hbeyond.2.1] at hout
      unfold Ctx.succs at hout ⊢
      rw [hs₅, Ctx.modifyBlock_blocks, hcur₄, if_pos rfl, List.flatMap_append, hout]
      rfl
    have hnum : s₅.numBlocks = s.numBlocks + 1 := by
      rw [hs₅]
      exact ht.numBlocks.trans (by rw [hs₄]; rfl)
    have hov : s₅.overflowBB = some s.numBlocks := by
      rw [hs₅]
      exact ht.overflowBB.trans (by rw [hs₄]; rfl)
    have hfrag : s₅.fragMap = s.fragMap := by
      rw [hs₅]
      exact ht.fragMap.trans (by rw [hs₄]; rfl)
    have hregs : s₅.regState.regs env.target = s.regState.regs env.target := by
      obtain ⟨log, hlog, _, hregs⟩ := ht.assigns
      rw [hlog rfl, applyAssigns_nil] at hregs
      rw [hs₅]
      exact hregs.trans (by rw [hs₄]; rfl)
    have hcurne : s.cur ≠ s.numBlocks := hat.lt.ne
    refine ⟨_, (hinv.addOverflow hnum hother hsuccs hphis hov hfrag).congr rfl rfl rfl
      (fun _ => rfl) rfl (fun _ => rfl), ⟨?_, hat.not_mem, ?_, ?_⟩, ⟨?_, hfrag, ?_⟩, ?_, hov, rfl⟩
    · exact hnum ▸ Nat.lt_succ_of_lt hat.lt
    · have hopen := hat.isOpen
      unfold Ctx.succs at hopen ⊢
      rw [hother s.cur hcurne]
      exact hopen
    · refine hregs.trans (hat.regs.trans ?_)
      unfold endRegs
      rw [hother s.cur hcurne, Function.update_of_ne hcurne]
    · exact Nat.le_trans (Nat.le_succ _) (Nat.le_of_eq hnum.symm)
    · intro b hb
      exact congrArg (fun blk : BasicBlock => blk.phis.map Phi.ty) (hother b hb.ne)
    · intro b hb
      exact Function.update_of_ne hb.ne _ _

theorem regs_eq_of_none {target : TargetInfo} (h : ¬ 0 < target.numMachineRegs)
    (x y : Regs target Value) : x = y := by
  funext r
  have hr : r.1 ∈ target.machineRegs := target.mem_machineRegs.mpr r.2
  exact absurd (List.length_pos_of_mem hr) h

theorem starts_or_noRegs {target : TargetInfo} {s : Ctx} {b : Block}
    (h : target.numMachineRegs ≤ (s.blocks b).phis.length) (x y : Regs target Value) :
    startRegs target entry s b ≠ none ∨ x = y := by
  by_cases hpos : 0 < target.numMachineRegs
  · left
    rw [startRegs_of_phis (List.ne_nil_of_length_pos (Nat.lt_of_lt_of_le hpos h))]
    exact Option.some_ne_none _
  · right
    exact regs_eq_of_none hpos x y

theorem overflowTest_step {s s' : Ctx} {G : Block → Regs env.target Value} {p q : List Block}
    {o next : Block} {cond : Nat} {vals : List Value}
    (hinv : Inv env.target entry K s G (next :: p) q) (hat : At env.target s G (next :: p) q)
    (hov : s.overflowBB = some o) (hvals : env.target.machineRegs.mapM s.regState.get = some vals)
    (hblocks : s'.blocks =
      s.terminated o (feed s.cur vals 0 (s.blocks o).phis) (.condBr cond o next))
    (hnum : s'.numBlocks = s.numBlocks) (hov' : s'.overflowBB = s.overflowBB)
    (hfrag : s'.fragMap = s.fragMap) (hcur : s'.cur = next) (hst : s'.regState = s.regState) :
    ∃ G', Inv env.target entry K s' G' p q ∧ At env.target s' G' p q ∧ Frame s s' ∧
      ∀ b, b ≠ next → G' b = G b := by
  obtain ⟨holt, hop, holen⟩ := hinv.overflow o hov
  have hne : o ≠ next := fun h => hop (h ▸ List.mem_cons_self)
  have hnext := hinv.untargeted next List.mem_cons_self
  have hnil := (startRegs_eq_none.mp hnext.1).1
  obtain ⟨hlen, hget⟩ := mapM_eq_some hvals
  have hmem : ∀ b, b ∈ (Terminator.condBr cond o next).succs ↔ b = o ∨ b = next := by
    simp [Terminator.succs]
  have hfed : Fed env.target s.cur (endRegs s G s.cur) (K o)
      (Terminator.condBr cond o next).succs o (s.blocks o).phis
      (feed s.cur vals 0 (s.blocks o).phis) := by
    refine Fed.of_feed ?_ ?_ ?_ ?_
    · simp [Terminator.succs, Ne.symm hne]
    · intro i r hi
      rw [hget i r.1 hi, ← hat.regs]
      rfl
    · intro i hi _
      rw [hlen]
      exact Nat.lt_of_lt_of_eq hi holen
    · intro i phi hphi hi
      exact (hinv.phis o i phi hphi).ty hi
  have hother : ∀ b ∈ (Terminator.condBr cond o next).succs, b ≠ o → (s.blocks b).phis = [] := by
    intro b hb hbo
    rcases (hmem b).mp hb with hb | hb
    · exact absurd hb hbo
    · exact hb ▸ hnil
  have hlt : ∀ b ∈ (Terminator.condBr cond o next).succs, b < s.numBlocks := by
    intro b hb
    rcases (hmem b).mp hb with hb | hb
    · exact hb ▸ holt
    · exact hb ▸ hinv.bound next List.mem_cons_self
  have hts : ∀ b ∈ [next], b ∈ (Terminator.condBr cond o next).succs := by
    intro b hb
    exact (hmem b).mpr (Or.inr (List.mem_singleton.mp hb))
  have htarget : ∀ b ∈ (Terminator.condBr cond o next).succs, b ∈ [next] ∨
      startRegs env.target entry s b ≠ none ∨ G b = endRegs s G s.cur := by
    intro b hb
    rcases (hmem b).mp hb with hb | hb
    · exact Or.inr (hb ▸ starts_or_noRegs (Nat.le_of_eq holen.symm) _ _)
    · exact Or.inl (hb ▸ List.mem_singleton_self _)
  have hpend : ∀ b ∈ (Terminator.condBr cond o next).succs, b ∉ p := by
    intro b hb hbp
    rcases (hmem b).mp hb with hb | hb
    · exact hop (List.mem_cons_of_mem _ (hb ▸ hbp))
    · exact (List.nodup_cons.mp (List.nodup_append.mp hinv.nodup).1).1 (hb ▸ hbp)
  have hinv₀ : Inv env.target entry K s G ([next] ++ p) q := hinv
  obtain ⟨hinv', hframe⟩ :=
    hinv₀.terminate hat hblocks hnum hov' hfrag hfed hother hlt hts htarget hpend
  rw [List.singleton_append, ← hcur] at hinv'
  have hstart : s'.regState.regs env.target =
      Flow.enter G [s'.cur] (endRegs s G s.cur) s'.cur := by
    rw [hst, hat.regs, Flow.enter_of_mem _ (List.mem_singleton_self _)]
  obtain ⟨hinv', hat'⟩ := hinv'.enterReady hstart
  refine ⟨_, hinv', hat', hframe, ?_⟩
  intro b hb
  apply Flow.enter_of_not_mem
  rw [List.mem_singleton, hcur]
  exact hb

theorem arithWithOverflow_continues (fn : Intrinsic) (sz : Nat) (args : List Value) :
    Continues env entry K (arithWithOverflow env fn sz args) := by
  unfold arithWithOverflow
  refine Continues.bind (StraightLine.insert _ _ _).continues fun pair => ?_
  refine Continues.bind (StraightLine.emit _ _ _).continues fun res => ?_
  refine Continues.bind (StraightLine.insert _ _ _).continues fun obit => ?_
  intro s G p q a s' hinv hat hrun
  obtain ⟨next, s₁, h₁, hrun₁⟩ := bind_eq_some.mp hrun
  obtain ⟨o, s₃, h₂, hrun₂⟩ := bind_eq_some.mp hrun₁
  cases h₁
  have hne : s.cur ≠ s.numBlocks := hat.lt.ne
  have hat₁ : At env.target { s with numBlocks := s.numBlocks + 1 } G (s.numBlocks :: p) q := by
    refine ⟨Nat.lt_succ_of_lt hat.lt, ?_, hat.isOpen, hat.regs⟩
    intro hmem
    rcases List.mem_cons.mp hmem with hmem | hmem
    · exact hne hmem
    · exact hat.not_mem hmem
  unfold getOverflowBB at h₂
  obtain ⟨src, s₂, h₃, h₄⟩ := bind_eq_some.mp h₂
  cases h₃
  obtain ⟨o', s₂, h₅, h₆⟩ := bind_eq_some.mp h₄
  obtain ⟨G₂, hinv₂, hat₂, hframe₂, heq₂, hov₂, hcur₂⟩ := createOverflowBB_step hinv.newBB hat₁ h₅
  obtain ⟨_, s₃', h₇, h₈⟩ := bind_eq_some.mp h₆
  cases pure_eq_some.mp h₈
  obtain ⟨vals, hvals, hs₃⟩ := addOverflowIncoming_eq_some h₇
  obtain ⟨_, s₄, h₉, hrun₃⟩ := bind_eq_some.mp hrun₂
  obtain ⟨_, s₅, h₁₀, hrun₄⟩ := bind_eq_some.mp hrun₃
  cases pure_eq_some.mp hrun₄
  have hs' : s' = { s₃.modifyBlock s₃.cur fun blk =>
      { blk with terms := blk.terms ++ [.condBr obit o s.numBlocks] } with cur := s.numBlocks } := by
    cases h₁₀
    cases h₉
    rfl
  rw [hs₃] at hs'
  have hblocks : s'.blocks =
      s₂.terminated o (feed s₂.cur vals 0 (s₂.blocks o).phis) (.condBr obit o s.numBlocks) := by
    rw [hs', hcur₂]
    rfl
  have hst : s'.regState = s₂.regState := by rw [hs']; rfl
  obtain ⟨G', hinv', hat', hframe', heq'⟩ := overflowTest_step hinv₂ hat₂ hov₂ hvals hblocks
    (by rw [hs']; rfl) (by rw [hs']; rfl) (by rw [hs']; rfl) (by rw [hs']) hst
  refine ⟨G', hinv', hat', ?_, ?_⟩
  · refine ⟨?_, ?_, ?_⟩
    · exact Nat.le_trans (Nat.le_succ _) (Nat.le_trans hframe₂.numBlocks hframe'.numBlocks)
    · exact hframe'.fragMap.trans hframe₂.fragMap
    · intro b hb
      have hb' : b < s.numBlocks + 1 := Nat.lt_succ_of_lt hb
      exact (hframe'.tys b (Nat.lt_of_lt_of_le hb' hframe₂.numBlocks)).trans (hframe₂.tys b hb')
  · intro b hb
    exact (heq' b hb.ne).trans (heq₂ b (Nat.lt_succ_of_lt hb))

theorem arith_continues (oper : Arith) (args : List Value) :
    Continues env entry K (oper.codegen env args) := by
  unfold Arith.codegen
  split
  · rename_i oper sz a b
    cases oper with
    | iadd | isub | imul => exact arithWithOverflow_continues _ _ _
    | idiv | irem => exact (StraightLine.createBinOp env _ _ _).continues
  · exact StraightLine.failure.continues
  · exact (StraightLine.convert _ _ _).continues

/-! ## Statements -/

theorem transfer_finishes (op : Transfer) (fn : Exp) (args : List Exp) (tys : List CfgTy) :
    Finishes env entry K [] [] (transfer env op fn args tys) := by
  unfold transfer
  refine Finishes.bind (StraightLine.callee env op fn tys).continues fun r => ?_
  refine Finishes.bind (StraightLine.require _).continues fun _ => ?_
  refine Finishes.bind (StraightLine.setupStdArgs env _ _ _).continues fun _ => ?_
  refine Finishes.bind (StraightLine.insert _ _ _).continues fun _ => ?_
  intro s G p q u s' hinv hat _ hrun
  cases hrun
  have hnil : ∀ b, b ∈ Terminator.retVoid.succs ↔ b ∈ ([] : List Block) := fun b => Iff.rfl
  obtain ⟨hinv', hframe⟩ := hinv.terminatePlain hat rfl hnil
  exact ⟨_, hinv', hframe, fun b _ hb => Flow.enter_of_not_mem _ hb⟩

theorem codegenArgs_length {es : List Exp} {s s' : Ctx} {vs : List Value}
    (h : Exp.codegenArgs env es s = some (vs, s')) : vs.length = es.length := by
  induction es generalizing s vs with
  | nil =>
    cases pure_eq_some.mp h
    rfl
  | cons e es ih =>
    obtain ⟨v, s₁, _, h₁⟩ := bind_eq_some.mp h
    obtain ⟨vs', s₂, h₂, h₃⟩ := bind_eq_some.mp h₁
    cases pure_eq_some.mp h₃
    rw [List.length_cons, List.length_cons, ih h₂]

theorem goto_finishes (lab : Lvar) (cfgArgs : List Exp) :
    Finishes env entry K [] [(lab, cfgArgs.length)] (goto env lab cfgArgs) := by
  intro s G p q u s' hinv hat hfeeds hrun
  unfold goto at hrun
  obtain ⟨src, s₀, h₁, hrun₁⟩ := bind_eq_some.mp hrun
  cases h₁
  obtain ⟨dst, s₀, h₂, hrun₂⟩ := bind_eq_some.mp hrun₁
  obtain ⟨frag, hfrag, hr⟩ := Option.map_eq_some_iff.mp h₂
  cases hr
  obtain ⟨_, s₀, h₃, hrun₃⟩ := bind_eq_some.mp hrun₂
  cases (require_eq_some.mp h₃).2
  obtain ⟨args, s₀, h₄, hrun₄⟩ := bind_eq_some.mp hrun₃
  obtain ⟨args', hargs, hr⟩ := createArgList_eq_some.mp h₄
  cases hr
  obtain ⟨userArgs, s₁, h₅, hrun₅⟩ := bind_eq_some.mp hrun₄
  obtain ⟨_, s₂, h₆, hrun₆⟩ := bind_eq_some.mp hrun₅
  obtain ⟨hlen, hs₂⟩ := addFragIncoming_eq_some h₆
  have hs : Straight env.target false s s₁ := StraightLine.expArgs env cfgArgs s userArgs s₁ h₅
  obtain ⟨hinv₁, hat₁⟩ := hinv.straight hat hs
  have hregs : s₁.regState.regs env.target = s.regState.regs env.target := by
    obtain ⟨log, hlog, _, hregs⟩ := hs.assigns
    rw [hlog rfl, applyAssigns_nil] at hregs
    exact hregs
  obtain ⟨hnumArgs, hget⟩ := createArgs_internal hargs
  obtain ⟨hlt, hpend⟩ := hinv.frags lab dst hfrag
  have hall : (args ++ userArgs).length = numExtraArgs env + cfgArgs.length := by
    rw [List.length_append, hnumArgs, codegenArgs_length h₅]
  have hphis : env.target.numMachineRegs ≤ (s₁.blocks dst.bb).phis.length := by
    have hle : env.target.numMachineRegs ≤ numExtraArgs env := Nat.le_add_right _ _
    omega
  have hvalues : ∀ (i : Nat) r, env.target.machineRegs[i]? = some r.1 →
      (args ++ userArgs)[i]? = endRegs s₁ G s₁.cur r := by
    intro i r hi
    have hilt : i < args.length := by
      have hilt : i < env.target.numMachineRegs := (List.getElem?_eq_some_iff.mp hi).1
      have hle : env.target.numMachineRegs ≤ numExtraArgs env := Nat.le_add_right _ _
      omega
    rw [List.getElem?_append_left hilt, hget i r.1 hi, ← hat₁.regs, hregs]
    rfl
  have hmem : ∀ b, b ∈ (Terminator.br dst.bb).succs ↔ b = dst.bb := by simp [Terminator.succs]
  have hfed : Fed env.target s₁.cur (endRegs s₁ G s₁.cur) (K dst.bb) (Terminator.br dst.bb).succs
      dst.bb (s₁.blocks dst.bb).phis (feed s₁.cur (args ++ userArgs) 0 (s₁.blocks dst.bb).phis) := by
    refine Fed.of_feed (by simp [Terminator.succs]) hvalues ?_ ?_
    · intro i _ hK
      rw [hall]
      exact hfeeds _ (List.mem_singleton_self _) dst hfrag i hK
    · intro i phi hphi hi
      exact (hinv₁.phis dst.bb i phi hphi).ty hi
  have hblocks : s'.blocks =
      s₁.terminated dst.bb (feed s₁.cur (args ++ userArgs) 0 (s₁.blocks dst.bb).phis)
        (.br dst.bb) := by
    cases hrun₆
    rw [hs₂, hs.cur]
    rfl
  have hsame : s'.numBlocks = s₁.numBlocks ∧ s'.overflowBB = s₁.overflowBB ∧
      s'.fragMap = s₁.fragMap := by
    cases hrun₆
    rw [hs₂]
    exact ⟨rfl, rfl, rfl⟩
  have hinv₂ : Inv env.target entry K s₁ G ([] ++ p) q := hinv₁
  obtain ⟨hinv', hframe⟩ := hinv₂.terminate hat₁ hblocks hsame.1 hsame.2.1 hsame.2.2 hfed
    (fun b hb hne => absurd ((hmem b).mp hb) hne)
    (fun b hb => by
      rw [(hmem b).mp hb, hs.numBlocks]
      exact hlt)
    (fun b hb => absurd hb List.not_mem_nil)
    (fun b hb => Or.inr ((hmem b).mp hb ▸ starts_or_noRegs hphis _ _))
    (fun b hb => (hmem b).mp hb ▸ hpend)
  exact ⟨_, hinv', hs.frame.trans hframe, fun b _ hb => Flow.enter_of_not_mem _ hb⟩

theorem Finishes.arm {m : Gen Unit} {arms : List Block} {gotos : List (Lvar × Nat)}
    (hm : Finishes env entry K arms gotos m) {s s' : Ctx} {G : Block → Regs env.target Value}
    {p q : List Block} {u : Unit} (hinv : Inv env.target entry K s G (arms ++ p) (s.cur :: q))
    (hregs : s.regState.regs env.target = G s.cur) (hfeeds : Feeds env K s.fragMap gotos)
    (hrun : m s = some (u, s')) :
    ∃ G', Inv env.target entry K s' G' p q ∧ Frame s s' ∧
      ∀ b < s.numBlocks, b ∉ arms → G' b = G b := by
  obtain ⟨hinv', hat⟩ := hinv.enterReady hregs
  exact hm s G p q u s' hinv' hat hfeeds hrun

theorem armBlocks_eq_some {arms : List Stm} {s s' : Ctx} {bbs : List Block}
    (h : armBlocks arms s = some (bbs, s')) : bbs = Stm.heads arms ∧ s' = s := by
  induction arms generalizing s bbs with
  | nil =>
    cases pure_eq_some.mp h
    exact ⟨rfl, rfl⟩
  | cons arm arms ih =>
    obtain ⟨bb, s₁, h₁, h₂⟩ := bind_eq_some.mp h
    obtain ⟨bbs', s₂, h₃, h₄⟩ := bind_eq_some.mp h₂
    cases pure_eq_some.mp h₄
    obtain ⟨bb', hbb, hr⟩ := ofOption_eq_some.mp h₁
    cases hr
    obtain ⟨hbbs, hs⟩ := ih h₃
    refine ⟨?_, hs⟩
    rw [Stm.heads, hbb, hbbs]
    rfl

theorem createSwitch_step {s s' : Ctx} {G : Block → Regs env.target Value} {p q : List Block}
    {arg : Value} {arms : List Stm} {u : Unit}
    (hinv : Inv env.target entry K s G ((Stm.heads arms ++ Stm.armsAll arms) ++ p) q)
    (hat : At env.target s G ((Stm.heads arms ++ Stm.armsAll arms) ++ p) q)
    (hrun : createSwitch arg arms s = some (u, s')) :
    ∃ G', Inv env.target entry K s' G' (Stm.armsAll arms ++ p) (Stm.heads arms ++ q) ∧
      Frame s s' ∧ (∀ b ∈ Stm.heads arms, G' b = s.regState.regs env.target) ∧
      (∀ b < s.numBlocks, b ∉ Stm.heads arms → G' b = G b) ∧ s'.regState = s.regState := by
  unfold createSwitch at hrun
  obtain ⟨cur, s₀, h₁, hrun₁⟩ := bind_eq_some.mp hrun
  cases h₁
  obtain ⟨dflt, s₁, h₂, hrun₂⟩ := bind_eq_some.mp hrun₁
  cases h₂
  obtain ⟨_, s₂, h₃, hrun₃⟩ := bind_eq_some.mp hrun₂
  cases h₃
  obtain ⟨_, s₃, h₄, hrun₄⟩ := bind_eq_some.mp hrun₃
  obtain ⟨_, s₄, h₅, hrun₅⟩ := bind_eq_some.mp hrun₄
  obtain ⟨bbs, s₅, h₆, hrun₆⟩ := bind_eq_some.mp hrun₅
  obtain ⟨hbbs, hs₅⟩ := armBlocks_eq_some h₆
  subst hbbs hs₅
  have hs₄ : s₅ = { { s with numBlocks := s.numBlocks + 1 }.modifyBlock s.numBlocks fun blk =>
      { blk with terms := blk.terms ++ [Terminator.unreachable] } with cur := s.cur } := by
    cases h₅
    cases h₄
    rfl
  have hs' : s' = s₅.modifyBlock s₅.cur fun blk =>
      { blk with terms := blk.terms ++ [.switch arg s.numBlocks (Stm.heads arms)] } := by
    cases hrun₆
    rfl
  have hblocks : ∀ b, s₅.blocks b = if b = s.numBlocks then
      { s.blocks s.numBlocks with terms := (s.blocks s.numBlocks).terms ++ [Terminator.unreachable] }
      else s.blocks b := by
    intro b
    rw [hs₄]
    exact Ctx.modifyBlock_blocks { s with numBlocks := s.numBlocks + 1 } s.numBlocks b fun blk =>
      { blk with terms := blk.terms ++ [Terminator.unreachable] }
  have hphis : ∀ b, (s₅.blocks b).phis = (s.blocks b).phis := by
    intro b
    rw [hblocks]
    split
    · rename_i hb
      rw [hb]
    · rfl
  have hassigns : ∀ b, (s₅.blocks b).assigns = (s.blocks b).assigns := by
    intro b
    rw [hblocks]
    split
    · rename_i hb
      rw [hb]
    · rfl
  have hsuccs : s₅.succs = s.succs := by
    funext b
    unfold Ctx.succs
    rw [hblocks]
    split
    · rename_i hb
      rw [hb, List.flatMap_append]
      exact List.append_nil _
    · rfl
  have hinv₁ : Inv env.target entry K s₅ G
      ((s.numBlocks :: Stm.heads arms) ++ (Stm.armsAll arms ++ p)) q := by
    have hnew := hinv.newBB
    rw [List.append_assoc] at hnew
    exact hnew.congr (by rw [hs₄]; rfl) (by rw [hs₄]; rfl) (by rw [hs₄]; rfl) hphis hsuccs hassigns
  have hcur : s₅.cur = s.cur := by rw [hs₄]
  have hend : endRegs s₅ G s₅.cur = s.regState.regs env.target := by
    rw [hat.regs, hcur]
    unfold endRegs
    rw [hassigns]
  have hat₁ : At env.target s₅ G ((s.numBlocks :: Stm.heads arms) ++ (Stm.armsAll arms ++ p)) q := by
    refine ⟨?_, ?_, ?_, ?_⟩
    · rw [hs₄]
      exact Nat.lt_succ_of_lt hat.lt
    · rw [hcur]
      intro hmem
      rcases List.mem_cons.mp hmem with hmem | hmem
      · exact hat.lt.ne hmem
      · apply hat.not_mem
        rw [List.append_assoc (Stm.heads arms)]
        exact hmem
    · rw [hcur, hsuccs]
      exact hat.isOpen
    · rw [hend, hs₄]
      rfl
  obtain ⟨hinv', hframe⟩ := hinv₁.terminatePlain hat₁ hs' fun b => Iff.rfl
  refine ⟨_, hinv'.sub (List.Perm.refl _) (List.sublist_cons_self _ _).subperm, ?_, ?_, ?_, ?_⟩
  · have hframe₀ : Frame s s₅ := by
      refine ⟨?_, ?_, fun b _ => by rw [hphis]⟩
      · rw [hs₄]
        exact Nat.le_succ _
      · rw [hs₄]
        rfl
    exact hframe₀.trans hframe
  · intro b hb
    rw [Flow.enter_of_mem _ (List.mem_cons_of_mem _ hb), hend]
  · intro b hlt hb
    apply Flow.enter_of_not_mem
    intro hmem
    rcases List.mem_cons.mp hmem with hmem | hmem
    · exact hlt.ne hmem
    · exact hb hmem
  · rw [hs', hs₄]
    rfl

theorem condBr_step {s s' : Ctx} {G : Block → Regs env.target Value} {p q : List Block}
    {cond : Nat} {bb₁ bb₂ : Block} {u : Unit}
    (hinv : Inv env.target entry K s G ([bb₁, bb₂] ++ p) q)
    (hat : At env.target s G ([bb₁, bb₂] ++ p) q)
    (hrun : terminate (.condBr cond bb₁ bb₂) s = some (u, s')) :
    ∃ G', Inv env.target entry K s' G' p (bb₁ :: bb₂ :: q) ∧ Frame s s' ∧
      G' bb₁ = s.regState.regs env.target ∧ G' bb₂ = s.regState.regs env.target ∧
      (∀ b, b ∉ [bb₁, bb₂] → G' b = G b) ∧ s'.regState = s.regState := by
  cases hrun
  have hts : ∀ b, b ∈ (Terminator.condBr cond bb₁ bb₂).succs ↔ b ∈ [bb₁, bb₂] := fun b => Iff.rfl
  obtain ⟨hinv', hframe⟩ := hinv.terminatePlain hat rfl hts
  refine ⟨_, hinv', hframe, ?_, ?_, fun b hb => Flow.enter_of_not_mem _ hb, rfl⟩
  · rw [Flow.enter_of_mem _ List.mem_cons_self, hat.regs]
  · rw [Flow.enter_of_mem _ (List.mem_cons_of_mem _ (List.mem_singleton_self _)), hat.regs]

theorem Feeds.left {fragMap : Lvar → Option FragRef} {as bs : List (Lvar × Nat)}
    (h : Feeds env K fragMap (as ++ bs)) : Feeds env K fragMap as :=
  fun g hg => h g (List.mem_append_left _ hg)

theorem Feeds.right {fragMap : Lvar → Option FragRef} {as bs : List (Lvar × Nat)}
    (h : Feeds env K fragMap (as ++ bs)) : Feeds env K fragMap bs :=
  fun g hg => h g (List.mem_append_right _ hg)

mutual

theorem stm_finishes (t : Stm) : Finishes env entry K t.arms t.gotos (t.codegen env) := by
  cases t with
  | letS bb e x k =>
    exact Finishes.bind (StraightLine.exp env e).continues fun _ =>
      Finishes.bind (StraightLine.insertVal _ _).continues fun _ => stm_finishes k
  | alloc bb oper args x k =>
    exact Finishes.bind (StraightLine.expArgs env args).continues fun _ =>
      Finishes.bind (StraightLine.alloc env oper _).continues fun _ =>
        Finishes.bind (StraightLine.insertVal _ _).continues fun _ => stm_finishes k
  | apply bb fn args tys => exact transfer_finishes _ _ _ _
  | throw bb fn args tys => exact transfer_finishes _ _ _ _
  | goto bb lab args => exact goto_finishes _ _
  | switch bb e arms =>
    refine Finishes.bind (StraightLine.exp env e).continues fun v => ?_
    refine Finishes.bind (StraightLine.emit _ _ _).continues fun arg => ?_
    intro s G p q u s' hinv hat hfeeds hrun
    obtain ⟨_, s₁, h₁, hrun₁⟩ := bind_eq_some.mp hrun
    obtain ⟨saveRegs, s₂, h₂, hrun₂⟩ := bind_eq_some.mp hrun₁
    cases h₂
    obtain ⟨G₁, hinv₁, hframe₁, hstart, heq₁, hst⟩ := createSwitch_step hinv hat h₁
    rw [← hst] at hstart
    rw [← hframe₁.fragMap] at hfeeds
    obtain ⟨G₂, hinv₂, hframe₂, heq₂⟩ :=
      arms_finish arms s₁.regState s₁ s' G₁ p q u hinv₁ hstart hfeeds hrun₂
    refine ⟨G₂, hinv₂, hframe₁.trans hframe₂, ?_⟩
    intro b hb hmem
    rw [Stm.arms, List.mem_append, not_or] at hmem
    rw [heq₂ b (Nat.lt_of_lt_of_le hb hframe₁.numBlocks) hmem.2, heq₁ b hb hmem.1]
  | branch bb oper args k₁ k₂ =>
    refine Finishes.bind (StraightLine.expArgs env args).continues fun vs => ?_
    refine Finishes.bind (StraightLine.branch env oper vs).continues fun cond => ?_
    intro s G p q u s' hinv hat hfeeds hrun
    obtain ⟨bb₁, s₀, h₁, hrun₁⟩ := bind_eq_some.mp hrun
    obtain ⟨bb₁', hbb₁, hr⟩ := ofOption_eq_some.mp h₁
    cases hr
    obtain ⟨bb₂, s₀, h₂, hrun₂⟩ := bind_eq_some.mp hrun₁
    obtain ⟨bb₂', hbb₂, hr⟩ := ofOption_eq_some.mp h₂
    cases hr
    obtain ⟨_, s₁, h₃, hrun₃⟩ := bind_eq_some.mp hrun₂
    obtain ⟨saveRegs, s₀, h₄, hrun₄⟩ := bind_eq_some.mp hrun₃
    cases h₄
    obtain ⟨_, s₂, h₅, hrun₅⟩ := bind_eq_some.mp hrun₄
    cases h₅
    obtain ⟨_, s₃, h₆, hrun₆⟩ := bind_eq_some.mp hrun₅
    obtain ⟨_, s₀, h₇, hrun₇⟩ := bind_eq_some.mp hrun₆
    cases h₇
    obtain ⟨_, s₄, h₈, hrun₈⟩ := bind_eq_some.mp hrun₇
    cases h₈
    have harms : Stm.arms (.branch bb oper args k₁ k₂) = [bb₁, bb₂] ++ (k₁.arms ++ k₂.arms) := by
      rw [Stm.arms, hbb₁, hbb₂]
      rfl
    rw [harms, List.append_assoc] at hinv hat
    obtain ⟨G₁, hinv₁, hframe₁, hstart₁, hstart₂, heq₁, hst⟩ := condBr_step hinv hat h₃
    rw [← hst] at hstart₁ hstart₂
    rw [← hframe₁.fragMap] at hfeeds
    rw [List.append_assoc] at hinv₁
    have hready := hinv₁.bound bb₂ (by simp)
    have hdisj : bb₂ ∉ k₁.arms := by
      intro hmem
      exact (List.nodup_append.mp hinv₁.nodup).2.2 bb₂ (List.mem_append_left _ hmem) bb₂
        (by simp) rfl
    -- the first arm goes on with the registers at the branch
    have hinv₂ : Inv env.target entry K { s₁ with cur := bb₁ } G₁ (k₁.arms ++ (k₂.arms ++ p))
        (bb₁ :: bb₂ :: q) := hinv₁.congr rfl rfl rfl (fun _ => rfl) rfl (fun _ => rfl)
    obtain ⟨G₂, hinv₃, hframe₂, heq₂⟩ :=
      (stm_finishes k₁).arm hinv₂ hstart₁.symm hfeeds.left h₆
    -- the second arm starts from the saved registers
    have hinv₄ : Inv env.target entry K
        { s₃ with regState := s₃.regState.copyFrom s₁.regState, cur := bb₂ } G₂ (k₂.arms ++ p)
        (bb₂ :: q) := hinv₃.congr rfl rfl rfl (fun _ => rfl) rfl (fun _ => rfl)
    have hstart : (s₃.regState.copyFrom s₁.regState).regs env.target = G₂ bb₂ := by
      rw [heq₂ bb₂ hready hdisj, hstart₂]
      rfl
    have hfeeds₂ : Feeds env K s₃.fragMap k₂.gotos := by
      rw [hframe₂.fragMap]
      exact hfeeds.right
    obtain ⟨G₃, hinv₅, hframe₃, heq₃⟩ := (stm_finishes k₂).arm hinv₄ hstart hfeeds₂ hrun₈
    have hframe₃' : Frame s₃ s' :=
      ⟨hframe₃.numBlocks, hframe₃.fragMap, hframe₃.tys⟩
    have hframe₂' : Frame s₁ s₃ :=
      ⟨hframe₂.numBlocks, hframe₂.fragMap, hframe₂.tys⟩
    refine ⟨G₃, hinv₅, hframe₁.trans (hframe₂'.trans hframe₃'), ?_⟩
    intro b hb hmem
    rw [harms, List.mem_append, List.mem_append, not_or, not_or] at hmem
    have hb₁ := Nat.lt_of_lt_of_le hb hframe₁.numBlocks
    have hb₂ := Nat.lt_of_lt_of_le hb₁ hframe₂'.numBlocks
    rw [heq₃ b hb₂ hmem.2.2, heq₂ b hb₁ hmem.2.1, heq₁ b hmem.1]
  | arith bb oper args x k =>
    exact Finishes.bind (StraightLine.expArgs env args).continues fun _ =>
      Finishes.bind (arith_continues oper _) fun _ =>
        Finishes.bind (StraightLine.insertVal _ _).continues fun _ => stm_finishes k
  | setter bb oper args k =>
    exact Finishes.bind (StraightLine.expArgs env args).continues fun _ =>
      Finishes.bind (StraightLine.setter env oper _).continues fun _ => stm_finishes k
  | callGC bb roots newRoots k =>
    exact Finishes.bind (StraightLine.createArgList env _).continues fun _ =>
      Finishes.bind (StraightLine.gcRoots env roots).continues fun _ =>
        Finishes.bind (StraightLine.callGC env _ _).continues fun _ => stm_finishes k
  | rcc bb k =>
    intro s G p q u s' _ _ _ hrun
    cases hrun

theorem arms_finish (arms : List Stm) (saveRegs : CMRegState Value) (s s' : Ctx)
    (G : Block → Regs env.target Value) (p q : List Block) (u : Unit)
    (hinv : Inv env.target entry K s G (Stm.armsAll arms ++ p) (Stm.heads arms ++ q))
    (hstart : ∀ b ∈ Stm.heads arms, G b = saveRegs.regs env.target)
    (hfeeds : Feeds env K s.fragMap (Stm.gotosAll arms))
    (hrun : Stm.codegenArms env saveRegs arms s = some (u, s')) :
    ∃ G', Inv env.target entry K s' G' p q ∧ Frame s s' ∧
      ∀ b < s.numBlocks, b ∉ Stm.armsAll arms → G' b = G b := by
  cases arms with
  | nil =>
    cases pure_eq_some.mp hrun
    exact ⟨G, hinv, Frame.refl s, fun _ _ _ => rfl⟩
  | cons arm arms =>
    obtain ⟨_, s₀, h₁, hrun₁⟩ := bind_eq_some.mp hrun
    cases h₁
    obtain ⟨bb, s₀, h₂, hrun₂⟩ := bind_eq_some.mp hrun₁
    obtain ⟨bb', hbb, hr⟩ := ofOption_eq_some.mp h₂
    cases hr
    obtain ⟨_, s₁, h₃, hrun₃⟩ := bind_eq_some.mp hrun₂
    cases h₃
    obtain ⟨_, s₂, h₄, hrun₄⟩ := bind_eq_some.mp hrun₃
    have hheads : Stm.heads (arm :: arms) = bb :: Stm.heads arms := by
      rw [Stm.heads, hbb]
      rfl
    rw [hheads] at hinv hstart
    rw [Stm.armsAll, List.append_assoc] at hinv
    have hinv₁ : Inv env.target entry K
        { s with regState := s.regState.copyFrom saveRegs, cur := bb } G
        (arm.arms ++ (Stm.armsAll arms ++ p)) (bb :: (Stm.heads arms ++ q)) :=
      hinv.congr rfl rfl rfl (fun _ => rfl) rfl (fun _ => rfl)
    have hregs : (s.regState.copyFrom saveRegs).regs env.target = G bb := by
      rw [hstart bb List.mem_cons_self]
      rfl
    obtain ⟨G₁, hinv₂, hframe₁, heq₁⟩ := (stm_finishes arm).arm hinv₁ hregs hfeeds.left h₄
    have hframe₁' : Frame s s₂ :=
      ⟨hframe₁.numBlocks, hframe₁.fragMap, hframe₁.tys⟩
    have hstart₂ : ∀ b ∈ Stm.heads arms, G₁ b = saveRegs.regs env.target := by
      intro b hb
      have hmem : b ∈ bb :: (Stm.heads arms ++ q) :=
        List.mem_cons_of_mem _ (List.mem_append_left _ hb)
      rw [heq₁ b (hinv.bound b (List.mem_append_right _ hmem)) ?_]
      · exact hstart b (List.mem_cons_of_mem _ hb)
      · intro harm
        exact (List.nodup_append.mp hinv.nodup).2.2 b (List.mem_append_left _ harm) b hmem rfl
    have hfeeds₂ : Feeds env K s₂.fragMap (Stm.gotosAll arms) := by
      rw [hframe₁'.fragMap]
      exact hfeeds.right
    obtain ⟨G₂, hinv₃, hframe₂, heq₂⟩ :=
      arms_finish arms saveRegs s₂ s' G₁ p q u hinv₂ hstart₂ hfeeds₂ hrun₄
    refine ⟨G₂, hinv₃, hframe₁'.trans hframe₂, ?_⟩
    intro b hb hmem
    rw [Stm.armsAll, List.mem_append, not_or] at hmem
    rw [heq₂ b (Nat.lt_of_lt_of_le hb hframe₁'.numBlocks) hmem.2, heq₁ b hb hmem.1]

end

end Run

end SmlnjLlvm.Codegen.Builder
