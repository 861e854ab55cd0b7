import SmlnjLlvm.Codegen.Statements

/-!
# Initialized fragments

Initialization creates one block for every fragment and every arm, and PHI nodes
without incoming values for the internal fragments. That establishes the
invariant of code generation: the arms are pending and the fragments are ready.
-/

namespace SmlnjLlvm.Codegen.Builder

open PartialState Threading

/-! ## Blocks of statements -/

/-- The blocks `bbs` are the ones created between two states that agree otherwise. -/
structure Allocates (s s' : Ctx) (bbs : List Block) : Prop where
  same : s' = { s with numBlocks := s'.numBlocks }
  le : s.numBlocks ≤ s'.numBlocks
  nodup : bbs.Nodup
  mem : ∀ b : Nat, b ∈ bbs ↔ s.numBlocks ≤ b ∧ b < s'.numBlocks

namespace Allocates

theorem refl (s : Ctx) : Allocates s s [] := by
  refine ⟨rfl, Nat.le_refl _, List.nodup_nil, ?_⟩
  intro b
  simp

theorem trans {s₁ s₂ s₃ : Ctx} {as bs : List Block} (h : Allocates s₁ s₂ as)
    (h' : Allocates s₂ s₃ bs) : Allocates s₁ s₃ (as ++ bs) := by
  refine ⟨?_, Nat.le_trans h.le h'.le, ?_, ?_⟩
  · rw [h'.same, h.same]
  · refine List.nodup_append.mpr ⟨h.nodup, h'.nodup, ?_⟩
    intro a ha b hb hab
    have ha' := ((h.mem a).mp ha).2
    have hb' := ((h'.mem b).mp hb).1
    exact Nat.not_lt.mpr hb' (hab ▸ ha')
  · intro b
    have hle := h.le
    have hle' := h'.le
    rw [List.mem_append, h.mem, h'.mem]
    omega

theorem perm {s s' : Ctx} {as bs : List Block} (h : Allocates s s' as) (hp : as.Perm bs) :
    Allocates s s' bs :=
  ⟨h.same, h.le, h.nodup.perm hp, fun b => hp.mem_iff.symm.trans (h.mem b)⟩

end Allocates

theorem initBB_allocates {blkEntry : Bool} {s s' : Ctx} {bb : Option Block}
    (h : initBB blkEntry s = some (bb, s')) :
    Allocates s s' bb.toList ∧ bb.isSome = blkEntry := by
  cases blkEntry with
  | false =>
    cases pure_eq_some.mp h
    exact ⟨Allocates.refl s, rfl⟩
  | true =>
    obtain ⟨b, s₁, h₁, h₂⟩ := bind_eq_some.mp h
    cases pure_eq_some.mp h₂
    cases h₁
    refine ⟨⟨rfl, Nat.le_succ _, List.nodup_singleton _, ?_⟩, rfl⟩
    intro b
    rw [Option.toList_some, List.mem_singleton]
    change b = s.numBlocks ↔ s.numBlocks ≤ b ∧ b < s.numBlocks + 1
    omega

theorem init_continuation {k k' : Stm} {blkEntry : Bool} {s s₁ s₂ : Ctx} {bb : Option Block}
    (hbb : initBB blkEntry s = some (bb, s₁))
    (hk : Allocates s₁ s₂ (k'.bb.toList ++ k'.arms) ∧ k'.bb.isSome = false ∧ k'.gotos = k.gotos) :
    Allocates s s₂ (bb.toList ++ k'.arms) ∧ bb.isSome = blkEntry ∧ k'.gotos = k.gotos := by
  obtain ⟨hbbs, hsome⟩ := initBB_allocates hbb
  obtain ⟨hk, hnone, hgotos⟩ := hk
  rw [Option.isSome_eq_false_iff, Option.isNone_iff_eq_none] at hnone
  rw [hnone, Option.toList_none, List.nil_append] at hk
  exact ⟨hbbs.trans hk, hsome, hgotos⟩

mutual

theorem stm_init {t t' : Stm} {blkEntry : Bool} {s s' : Ctx}
    (h : t.init blkEntry s = some (t', s')) :
    Allocates s s' (t'.bb.toList ++ t'.arms) ∧ t'.bb.isSome = blkEntry ∧ t'.gotos = t.gotos := by
  cases t with
  | letS _ e x k | alloc _ oper args x k | arith _ oper args x k | setter _ oper args k
  | callGC _ roots newRoots k | rcc _ k =>
    obtain ⟨bb, s₁, h₁, h₂⟩ := bind_eq_some.mp h
    obtain ⟨k', s₂, h₃, h₄⟩ := bind_eq_some.mp h₂
    cases pure_eq_some.mp h₄
    have hk := init_continuation h₁ (stm_init h₃)
    exact hk
  | apply _ fn args tys | throw _ fn args tys | goto _ lab args =>
    obtain ⟨bb, s₁, h₁, h₂⟩ := bind_eq_some.mp h
    cases pure_eq_some.mp h₂
    obtain ⟨hbbs, hsome⟩ := initBB_allocates h₁
    exact ⟨hbbs.perm (by simp [Stm.bb, Stm.arms]), hsome, rfl⟩
  | switch _ e arms =>
    obtain ⟨bb, s₁, h₁, h₂⟩ := bind_eq_some.mp h
    obtain ⟨arms', s₂, h₃, h₄⟩ := bind_eq_some.mp h₂
    cases pure_eq_some.mp h₄
    obtain ⟨hbbs, hsome⟩ := initBB_allocates h₁
    obtain ⟨harms, hgotos⟩ := arms_init h₃
    exact ⟨hbbs.trans harms, hsome, hgotos⟩
  | branch _ oper args k₁ k₂ =>
    obtain ⟨bb, s₁, h₁, h₂⟩ := bind_eq_some.mp h
    obtain ⟨k₁', s₂, h₃, h₄⟩ := bind_eq_some.mp h₂
    obtain ⟨k₂', s₃, h₅, h₆⟩ := bind_eq_some.mp h₄
    cases pure_eq_some.mp h₆
    obtain ⟨hbbs, hsome⟩ := initBB_allocates h₁
    obtain ⟨hk₁, _, hgotos₁⟩ := stm_init h₃
    obtain ⟨hk₂, _, hgotos₂⟩ := stm_init h₅
    refine ⟨(hbbs.trans (hk₁.trans hk₂)).perm ?_, hsome, ?_⟩
    · refine List.Perm.append_left _ ?_
      rw [Stm.arms, List.append_assoc, List.append_assoc]
      exact (List.perm_append_comm_assoc _ _ _).append_left _
    · rw [Stm.gotos, Stm.gotos, hgotos₁, hgotos₂]

theorem arms_init {arms arms' : List Stm} {s s' : Ctx}
    (h : Stm.initArms arms s = some (arms', s')) :
    Allocates s s' (Stm.heads arms' ++ Stm.armsAll arms') ∧
      Stm.gotosAll arms' = Stm.gotosAll arms := by
  cases arms with
  | nil =>
    cases pure_eq_some.mp h
    exact ⟨Allocates.refl s, rfl⟩
  | cons arm arms =>
    obtain ⟨arm', s₁, h₁, h₂⟩ := bind_eq_some.mp h
    obtain ⟨arms'', s₂, h₃, h₄⟩ := bind_eq_some.mp h₂
    cases pure_eq_some.mp h₄
    obtain ⟨harm, _, hgotos⟩ := stm_init h₁
    obtain ⟨harms, hgotosAll⟩ := arms_init h₃
    refine ⟨(harm.trans harms).perm ?_, ?_⟩
    · rw [Stm.heads, Stm.armsAll, List.append_assoc, List.append_assoc]
      exact (List.perm_append_comm_assoc _ _ _).append_left _
    · rw [Stm.gotosAll, Stm.gotosAll, hgotos, hgotosAll]

end

/-! ## Initialized fragments -/

/-- The types of the PHI nodes that a fragment receives. -/
def Frag.phiTys (env : Env) (frag : Frag) : List LlvmTy :=
  if frag.kind = .internal then frag.paramTys env else []

theorem createFragPHIs_eq_some {env : Env} {frag : Frag} {bb : Block} {s s' : Ctx} {u : Unit}
    (h : createFragPHIs env frag bb s = some (u, s')) :
    s'.numBlocks = s.numBlocks ∧ s'.overflowBB = s.overflowBB ∧ s'.fragMap = s.fragMap ∧
      ∀ b, s'.blocks b = if b = bb then
        { s.blocks b with phis := (s.blocks b).phis ++ (frag.phiTys env).map fun ty => ⟨ty, []⟩ }
        else s.blocks b := by
  unfold createFragPHIs at h
  unfold Frag.phiTys
  split at h
  · rename_i hkind
    rw [if_pos hkind]
    obtain ⟨_, s₁, h₁, h₂⟩ := bind_eq_some.mp h
    cases h₁
    rw [createPHIs_eq_some h₂]
    refine ⟨rfl, rfl, rfl, ?_⟩
    intro b
    rw [Ctx.modifyBlock_blocks]
    split
    · rename_i hb
      rw [hb]
    · rfl
  · rename_i hkind
    rw [if_neg hkind]
    cases pure_eq_some.mp h
    refine ⟨rfl, rfl, rfl, ?_⟩
    intro b
    split
    · simp
    · rfl

/-- What initialization does for one fragment. -/
structure FragInit (env : Env) (frag frag' : Frag) (bb : Block) (s s' : Ctx) : Prop where
  kind : frag'.kind = frag.kind
  head : frag'.body.bb = some bb
  gotos : frag'.body.gotos = frag.body.gotos
  allocates : ∃ s₁, Allocates s s₁ (frag'.body.bb.toList ++ frag'.body.arms) ∧
    s'.numBlocks = s₁.numBlocks
  overflowBB : s'.overflowBB = s.overflowBB
  fragMap : ∀ lab ref, s'.fragMap lab = some ref → s.fragMap lab = some ref ∨ ref.bb = bb
  blocks : ∀ b, s'.blocks b = if b = bb then
    { s.blocks b with phis := (s.blocks b).phis ++ (frag'.phiTys env).map fun ty => ⟨ty, []⟩ }
    else s.blocks b

theorem insertFrag_eq_some {lab : Lvar} {frag : FragRef} {s s' : Ctx} {u : Unit}
    (h : insertFrag lab frag s = some (u, s')) :
    s'.numBlocks = s.numBlocks ∧ s'.overflowBB = s.overflowBB ∧ s'.blocks = s.blocks ∧
      ∀ lab' ref, s'.fragMap lab' = some ref → s.fragMap lab' = some ref ∨ ref = frag := by
  unfold insertFrag at h
  split at h
  · cases h
    refine ⟨rfl, rfl, rfl, ?_⟩
    intro lab' ref href
    change Function.update s.fragMap lab (some frag) lab' = some ref at href
    by_cases hlab : lab' = lab
    · rw [hlab, Function.update_self] at href
      cases href
      exact Or.inr rfl
    · rw [Function.update_of_ne hlab] at href
      exact Or.inl href
  · cases h
    exact ⟨rfl, rfl, rfl, fun _ _ href => Or.inl href⟩

theorem frag_init {env : Env} {frag frag' : Frag} {s s' : Ctx}
    (h : frag.init env s = some (frag', s')) : ∃ bb, FragInit env frag frag' bb s s' := by
  obtain ⟨body, s₁, h₁, h₂⟩ := bind_eq_some.mp h
  obtain ⟨bb, s₀, h₃, h₄⟩ := bind_eq_some.mp h₂
  obtain ⟨bb', hbb, hr⟩ := ofOption_eq_some.mp h₃
  cases hr
  obtain ⟨_, s₂, h₅, h₆⟩ := bind_eq_some.mp h₄
  obtain ⟨_, s₃, h₇, h₈⟩ := bind_eq_some.mp h₆
  cases pure_eq_some.mp h₈
  obtain ⟨halloc, _, hgotos⟩ := stm_init h₁
  obtain ⟨hnum, hov, hfrag, hblocks⟩ := createFragPHIs_eq_some h₇
  have hsame := halloc.same
  obtain ⟨hnum₂, hov₂, hblocks₂, hfrag₂⟩ := insertFrag_eq_some h₅
  refine ⟨bb, rfl, hbb, hgotos, ⟨s₁, halloc, hnum.trans hnum₂⟩, ?_, ?_, ?_⟩
  · rw [hov, hov₂, hsame]
  · intro lab ref href
    rw [hfrag] at href
    rw [hsame] at hfrag₂
    rcases hfrag₂ lab ref href with href | href
    · exact Or.inl href
    · exact Or.inr (congrArg FragRef.bb href)
  · intro b
    rw [hblocks b, hblocks₂, hsame]
    rfl

def fragHeads (frags : List Frag) : List Block := frags.flatMap fun frag => frag.body.bb.toList

def fragArms (frags : List Frag) : List Block := frags.flatMap fun frag => frag.body.arms

/-- The context after the fragments `done` have been initialized. -/
structure Initialized (env : Env) (s : Ctx) (done : List Frag) : Prop where
  nodup : (fragArms done ++ fragHeads done).Nodup
  mem : ∀ b : Nat, b ∈ fragArms done ++ fragHeads done ↔ b < s.numBlocks
  blank : ∀ b, s.succs b = [] ∧ (s.blocks b).assigns = []
  bbs : ∀ frag ∈ done, ∃ bb, frag.body.bb = some bb ∧
    (s.blocks bb).phis = (frag.phiTys env).map fun ty => ⟨ty, []⟩
  phis : ∀ b, (s.blocks b).phis ≠ [] → ∃ frag ∈ done, frag.kind = .internal ∧
    frag.body.bb = some b
  frags : ∀ lab ref, s.fragMap lab = some ref → ref.bb ∈ fragHeads done
  overflow : s.overflowBB = none

theorem fragHeads_append (as bs : List Frag) :
    fragHeads (as ++ bs) = fragHeads as ++ fragHeads bs := List.flatMap_append

theorem fragArms_append (as bs : List Frag) :
    fragArms (as ++ bs) = fragArms as ++ fragArms bs := List.flatMap_append

theorem mem_fragHeads {frags : List Frag} {b : Block} :
    b ∈ fragHeads frags ↔ ∃ frag ∈ frags, frag.body.bb = some b := by
  unfold fragHeads
  rw [List.mem_flatMap]
  simp only [Option.mem_toList]

theorem Initialized.step {env : Env} {s s' : Ctx} {done : List Frag} {frag frag' : Frag}
    (h : Initialized env s done) (hrun : frag.init env s = some (frag', s')) :
    Initialized env s' (done ++ [frag']) := by
  obtain ⟨bb, hinit⟩ := frag_init hrun
  obtain ⟨s₁, halloc, hnum⟩ := hinit.allocates
  have hbb : bb ∈ frag'.body.bb.toList ++ frag'.body.arms := by
    rw [hinit.head]
    exact List.mem_cons_self
  have hnew := ((halloc.mem bb).mp hbb).1
  have hheads : ∀ frag ∈ done, ∀ b, frag.body.bb = some b → b < s.numBlocks := by
    intro frag hfrag b hb
    exact (h.mem b).mp (List.mem_append_right _ (mem_fragHeads.mpr ⟨frag, hfrag, hb⟩))
  have hnil : (s.blocks bb).phis = [] := by
    by_contra hne
    obtain ⟨frag, hfrag, _, hb⟩ := h.phis bb hne
    exact Nat.not_lt.mpr hnew (hheads frag hfrag bb hb)
  have hperm : ((fragArms done ++ fragHeads done) ++
      (frag'.body.bb.toList ++ frag'.body.arms)).Perm
      (fragArms (done ++ [frag']) ++ fragHeads (done ++ [frag'])) := by
    rw [fragArms_append, fragHeads_append]
    have harms : fragArms [frag'] = frag'.body.arms := by simp [fragArms]
    have hhead : fragHeads [frag'] = frag'.body.bb.toList := by simp [fragHeads]
    rw [harms, hhead, List.append_assoc, List.append_assoc]
    refine List.Perm.append_left _ ?_
    rw [← List.append_assoc, ← List.append_assoc]
    exact (List.perm_append_comm).trans (by rw [List.append_assoc])
  refine ⟨?_, ?_, ?_, ?_, ?_, ?_, ?_⟩
  · refine List.Nodup.perm ?_ hperm
    refine List.nodup_append.mpr ⟨h.nodup, halloc.nodup, ?_⟩
    intro a ha b hb hab
    have ha' := (h.mem a).mp ha
    have hb' := ((halloc.mem b).mp hb).1
    exact Nat.not_lt.mpr hb' (hab ▸ ha')
  · intro b
    have hle := halloc.le
    rw [← hperm.mem_iff, List.mem_append, h.mem, halloc.mem, hnum]
    omega
  · intro b
    have hb := h.blank b
    unfold Ctx.succs at hb ⊢
    rw [hinit.blocks b]
    split
    · exact hb
    · exact hb
  · intro f hf
    rcases List.mem_append.mp hf with hf | hf
    · obtain ⟨b, hb, hphis⟩ := h.bbs f hf
      refine ⟨b, hb, ?_⟩
      have hne : b ≠ bb := by
        intro hbb'
        exact Nat.not_lt.mpr hnew (hbb' ▸ hheads f hf b hb)
      rw [hinit.blocks b, if_neg hne]
      exact hphis
    · rw [List.mem_singleton] at hf
      subst hf
      refine ⟨bb, hinit.head, ?_⟩
      rw [hinit.blocks bb, if_pos rfl]
      simp [hnil]
  · intro b hb
    by_cases hbb' : b = bb
    · subst hbb'
      refine ⟨frag', List.mem_append_right _ (List.mem_singleton_self _), ?_, hinit.head⟩
      by_contra hkind
      rw [hinit.blocks b, if_pos rfl, Frag.phiTys, if_neg hkind] at hb
      simp [hnil] at hb
    · rw [hinit.blocks b, if_neg hbb'] at hb
      obtain ⟨f, hf, hkind, hfb⟩ := h.phis b hb
      exact ⟨f, List.mem_append_left _ hf, hkind, hfb⟩
  · intro lab ref href
    rw [fragHeads_append, List.mem_append]
    rcases hinit.fragMap lab ref href with href | href
    · exact Or.inl (h.frags lab ref href)
    · exact Or.inr (mem_fragHeads.mpr ⟨frag', List.mem_singleton_self _, href ▸ hinit.head⟩)
  · rw [hinit.overflowBB, h.overflow]

theorem Initialized.run {env : Env} {s s' : Ctx} {done frags frags' : List Frag}
    (h : Initialized env s done) (hrun : Frag.initAll env frags s = some (frags', s')) :
    Initialized env s' (done ++ frags') ∧ frags'.map Frag.kind = frags.map Frag.kind ∧
      frags'.map (fun frag => frag.body.gotos) = frags.map fun frag => frag.body.gotos := by
  induction frags generalizing s done frags' with
  | nil =>
    cases pure_eq_some.mp hrun
    rw [List.append_nil]
    exact ⟨h, rfl, rfl⟩
  | cons frag frags ih =>
    obtain ⟨f, s₁, h₁, h₂⟩ := bind_eq_some.mp hrun
    obtain ⟨fs, s₂, h₃, h₄⟩ := bind_eq_some.mp h₂
    cases pure_eq_some.mp h₄
    obtain ⟨hall, hkinds, hgotos⟩ := ih (h.step h₁) h₃
    obtain ⟨bb, hinit⟩ := frag_init h₁
    rw [List.append_assoc, List.singleton_append] at hall
    refine ⟨hall, ?_, ?_⟩
    · rw [List.map_cons, List.map_cons, hkinds, hinit.kind]
    · rw [List.map_cons, List.map_cons, hgotos, hinit.gotos]

/-! ## The invariant at the start of code generation -/

theorem phiTys_internal (env : Env) {frag : Frag} (h : frag.kind = .internal) :
    ∃ tys, frag.phiTys env = List.replicate env.target.numMachineRegs .ptr ++ tys := by
  unfold Frag.phiTys Frag.paramTys createParamTys addExtraParamTys
  rw [if_pos h, h]
  simp only [getArgInfo, List.append_assoc]
  exact ⟨_, rfl⟩

theorem phiTys_getElem? (env : Env) {frag : Frag} (h : frag.kind = .internal) {i : Nat}
    (hi : i < env.target.numMachineRegs) : (frag.phiTys env)[i]? = some .ptr := by
  obtain ⟨tys, htys⟩ := phiTys_internal env h
  rw [htys, List.getElem?_append_left (by rwa [List.length_replicate]), List.getElem?_replicate,
    if_pos hi]

/-- The labelling before any edge exists. -/
def startLabels (target : TargetInfo) (entry : Block) (s : Ctx) (b : Block) :
    Regs target Value :=
  (startRegs target entry s b).getD fun _ => none

theorem Initialized.phi_eq {env : Env} {s : Ctx} {done : List Frag} (h : Initialized env s done)
    {b : Block} {i : Nat} {phi : Phi} (hphi : (s.blocks b).phis[i]? = some phi) :
    phi.incoming = [] ∧ (i < env.target.numMachineRegs → phi.ty = .ptr) := by
  have hne : (s.blocks b).phis ≠ [] := List.ne_nil_of_mem (List.mem_of_getElem? hphi)
  obtain ⟨frag, hfrag, hkind, hbb⟩ := h.phis b hne
  obtain ⟨bb, hbb', hphis⟩ := h.bbs frag hfrag
  rw [hbb] at hbb'
  cases hbb'
  rw [hphis, List.getElem?_map] at hphi
  obtain ⟨ty, hty, hphi⟩ := Option.map_eq_some_iff.mp hphi
  subst hphi
  refine ⟨rfl, ?_⟩
  intro hi
  rw [phiTys_getElem? env hkind hi] at hty
  cases hty
  rfl

theorem Initialized.inv {env : Env} {s : Ctx} {entry : Frag} {frags : List Frag} {eb : Block}
    (h : Initialized env s (entry :: frags)) (heb : entry.body.bb = some eb)
    (hrest : ∀ frag ∈ frags, frag.kind = .internal) (K : Block → Nat → Prop) :
    Inv env.target eb K s (startLabels env.target eb s) (fragArms (entry :: frags))
      (fragHeads (entry :: frags)) := by
  have hsuccs : ∀ a b, b ∉ s.succs a := by
    intro a b hb
    rw [(h.blank a).1] at hb
    cases hb
  have hlt : ∀ b ∈ fragHeads (entry :: frags), b < s.numBlocks := fun b hb =>
    (h.mem b).mp (List.mem_append_right _ hb)
  have hheads : ∀ b ∈ fragHeads (entry :: frags), b ∉ fragArms (entry :: frags) := by
    intro b hb hba
    exact (List.nodup_append.mp h.nodup).2.2 b hba b hb rfl
  have hphis : ∀ b, (s.blocks b).phis ≠ [] → b ∈ fragHeads (entry :: frags) := by
    intro b hb
    obtain ⟨frag, hfrag, _, hbb⟩ := h.phis b hb
    exact mem_fragHeads.mpr ⟨frag, hfrag, hbb⟩
  have hentry : eb ∈ fragHeads (entry :: frags) :=
    mem_fragHeads.mpr ⟨entry, List.mem_cons_self, heb⟩
  exact {
    nodup := h.nodup
    bound := fun b hb => (h.mem b).mp hb
    blank := fun b _ => h.blank b
    untargeted := fun b hb => by
      refine ⟨startRegs_eq_none.mpr ⟨?_, ?_⟩, fun a => hsuccs a b⟩
      · by_contra hne
        exact hheads b (hphis b hne) hb
      · intro hbe
        exact hheads eb hentry (hbe ▸ hb)
    beyond := fun b hb => by
      refine ⟨?_, h.blank b⟩
      by_contra hne
      exact Nat.not_lt.mpr hb (hlt b (hphis b hne))
    entry_lt := hlt eb hentry
    target_lt := fun a b hab => absurd hab (hsuccs a b)
    phis := fun b i phi hphi => by
      obtain ⟨hinc, hty⟩ := h.phi_eq hphi
      refine ⟨?_, ?_, ?_, hty⟩
      · intro _ a
        rw [hinc, List.count_eq_zero.mpr (hsuccs a b)]
        rfl
      · intro e he
        rw [hinc] at he
        cases he
      · intro r _ e he
        rw [hinc] at he
        cases he
    consistent := by
      refine ⟨?_, ?_⟩
      · intro b x hx
        unfold startLabels
        rw [← flow_start, hx]
        rfl
      · intro a b hab
        exact absurd hab (hsuccs a b)
    reached := fun hpos b hb hba => by
      have hmem := (h.mem b).mpr hb
      rcases List.mem_append.mp hmem with hmem | hmem
      · exact absurd hmem hba
      · obtain ⟨frag, hfrag, hbb⟩ := mem_fragHeads.mp hmem
        apply Flow.Reached.start
        rw [flow_start, ne_eq, startRegs_eq_none]
        intro hnone
        rcases List.mem_cons.mp hfrag with hfrag | hfrag
        · subst hfrag
          rw [heb] at hbb
          cases hbb
          exact hnone.2 rfl
        · obtain ⟨bb, hbb', hphis'⟩ := h.bbs frag (List.mem_cons_of_mem _ hfrag)
          rw [hbb] at hbb'
          cases hbb'
          have hget := phiTys_getElem? env (hrest frag hfrag) hpos
          rw [hnone.1] at hphis'
          rw [List.map_eq_nil_iff.mp hphis'.symm] at hget
          cases hget
    overflow := fun b hb => by
      rw [h.overflow] at hb
      cases hb
    frags := fun lab ref href => ⟨hlt _ (h.frags lab ref href), hheads _ (h.frags lab ref href)⟩ }

end SmlnjLlvm.Codegen.Builder
