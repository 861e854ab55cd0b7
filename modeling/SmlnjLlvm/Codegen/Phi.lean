import SmlnjLlvm.Codegen.Init

/-!
# PHI nodes and register threading

The code of each fragment keeps the invariant that initialization establishes.
For a whole cluster it says that the PHI nodes are complete and carry the
register values that the statements on each path assigned last.
-/

namespace SmlnjLlvm.Codegen.Builder

open PartialState Threading

/-! ## Registers on entry to a fragment -/

variable {attrs : Attrs} {bb : Block} {frag : Frag} {frags : List Frag} {st st' : CMRegState Value}
  {target : TargetInfo} {u : Unit} {vs : List Value}

theorem regs_eq_of_get {f : Nat → Value}
    (h : ∀ (i : Nat) r, target.machineRegs[i]? = some r → st.get r = some (f i)) :
    st.regs target = fun r => some (f (target.machineRegs.idxOf r.1)) := by
  funext r
  have hmem : r.1 ∈ target.machineRegs := target.mem_machineRegs.mpr r.2
  have hlt := List.idxOf_lt_length_of_mem hmem
  apply h
  rw [List.getElem?_eq_getElem hlt, List.getElem_idxOf hlt]

section Entry

variable {env : Env} {eb : Block} {K : Block → Nat → Prop} {s s' : Ctx}
  {G : Block → Regs env.target Value} {p q : List Block}

theorem setupBasePtr_regs {ptrToInt : Value → Value} {kind : FragKind} {arg : Nat → Option Value}
    (h : setupBasePtr target attrs ptrToInt kind arg st = some st') :
    st'.regs target = st.regs target := by
  unfold setupBasePtr at h
  split at h
  · obtain ⟨v, _, hv⟩ := Option.map_eq_some_iff.mp h
    rw [← hv]
    rfl
  · cases h
    rfl

theorem setupFragBasePtr_regs {info : ArgInfo} {phiNodes : Nat → Option Value}
    (h : setupFragBasePtr info phiNodes st = some st') : st'.regs target = st.regs target := by
  unfold setupFragBasePtr at h
  split at h
  · obtain ⟨v, _, hv⟩ := Option.map_eq_some_iff.mp h
    rw [← hv]
    rfl
  · cases h
    rfl

theorem setupStdEntry_regs {ptrToInt : Value → Value} {kind : FragKind} {n : Nat}
    {arg : Nat → Option Value} (harg : ∀ i < target.numMachineRegs, arg i = some (.arg i .ptr))
    (h : setupStdEntry target attrs ptrToInt kind n arg st = some (st', vs)) :
    st'.regs target = argRegs target := by
  unfold setupStdEntry at h
  obtain ⟨st₁, h₁, h⟩ := Option.bind_eq_some_iff.mp h
  obtain ⟨st₂, h₂, h⟩ := Option.bind_eq_some_iff.mp h
  obtain ⟨params, _, h⟩ := Option.bind_eq_some_iff.mp h
  cases h
  have hsome : ∀ i < (CMRegId.all.filter target.isMachineReg).length, (arg (0 + i)).isSome := by
    intro i hi
    rw [Nat.zero_add, harg i hi]
    rfl
  obtain ⟨st₁', hfold, hget, _, _⟩ := setupReg_foldlM target arg CMRegId.all_nodup 0 st hsome
  rw [h₁] at hfold
  cases hfold
  rw [setupBasePtr_regs h₂]
  refine regs_eq_of_get (f := fun i => .arg i .ptr) ?_
  intro i r hr
  have hi : i < target.numMachineRegs := (List.getElem?_eq_some_iff.mp hr).1
  rw [hget i r hr, Nat.zero_add, harg i hi]

theorem setupFragEntry_regs {n : Nat} {phiNodes : Nat → Option Value}
    (hphi : ∀ i < target.numMachineRegs, phiNodes i = some (.phi bb i .ptr))
    (h : setupFragEntry target attrs n phiNodes st = some (st', vs)) :
    st'.regs target = phiRegs target bb := by
  unfold setupFragEntry at h
  obtain ⟨st₁, h₁, h⟩ := Option.bind_eq_some_iff.mp h
  obtain ⟨st₂, h₂, h⟩ := Option.bind_eq_some_iff.mp h
  obtain ⟨params, _, h⟩ := Option.bind_eq_some_iff.mp h
  cases h
  have hsome : ∀ i < target.machineRegs.length, (phiNodes (0 + i)).isSome := by
    intro i hi
    rw [Nat.zero_add, hphi i hi]
    rfl
  obtain ⟨st₁', hfold, hget, _⟩ := set_foldlM phiNodes target.machineRegs_nodup 0 st hsome
  rw [h₁] at hfold
  cases hfold
  rw [setupFragBasePtr_regs h₂]
  refine regs_eq_of_get (f := fun i => .phi bb i .ptr) ?_
  intro i r hr
  have hi : i < target.numMachineRegs := (List.getElem?_eq_some_iff.mp hr).1
  rw [hget i r hr, Nat.zero_add, hphi i hi]

theorem setRegs_step {xs : List Param} (hinv : Inv env.target eb K s G p q)
    (hrun : bindParams xs vs { s with regState := st } = some (u, s')) :
    Inv env.target eb K s' G p q ∧ Frame s s' ∧ s'.cur = s.cur ∧
      s'.regState.regs env.target = st.regs env.target := by
  have hs : Straight env.target false { s with regState := st } s' :=
    StraightLine.bindParams xs vs _ u s' hrun
  obtain ⟨log, hlog, hassigns, hregs⟩ := hs.assigns
  rw [hlog rfl, applyAssigns_nil] at hregs
  rw [hlog rfl, List.append_nil] at hassigns
  have hall : ∀ b, (s'.blocks b).assigns = (s.blocks b).assigns := by
    intro b
    by_cases hb : b = s.cur
    · rw [hb]
      exact hassigns
    · exact congrArg BasicBlock.assigns (hs.other b hb)
  refine ⟨?_, ⟨Nat.le_of_eq hs.numBlocks.symm, hs.fragMap, ?_⟩, hs.cur, hregs⟩
  · exact hinv.congr hs.numBlocks hs.overflowBB hs.fragMap (fun b => hs.phis_eq b)
      (funext fun b => hs.succs b) hall
  · intro b _
    exact congrArg (List.map Phi.ty) (hs.phis_eq b)

theorem frag_step {s₁ : Ctx} {vm : Lvar → Option Value} {w : Unit}
    (hinv : Inv env.target eb K s G (frag.body.arms ++ p) (frag.body.bb.toList ++ q))
    (hbb : frag.body.bb = some bb) (hregs : st.regs env.target = G bb)
    (hfeeds : Feeds env K s.fragMap frag.body.gotos)
    (hbind : bindParams frag.params vs { s with vMap := vm, cur := bb, regState := st } =
      some (u, s₁)) (hrun : frag.body.codegen env s₁ = some (w, s')) :
    ∃ G', Inv env.target eb K s' G' p q ∧ Frame s s' := by
  have hinv₀ : Inv env.target eb K { s with vMap := vm, cur := bb } G (frag.body.arms ++ p)
      (frag.body.bb.toList ++ q) := hinv.congr rfl rfl rfl (fun _ => rfl) rfl fun _ => rfl
  obtain ⟨hinv₁, hframe₁, hcur, hst⟩ := setRegs_step hinv₀ hbind
  have hframe : Frame s s₁ := ⟨hframe₁.numBlocks, hframe₁.fragMap, hframe₁.tys⟩
  have hcur' : s₁.cur = bb := hcur
  rw [hbb, Option.toList_some, List.singleton_append, ← hcur'] at hinv₁
  rw [← hframe.fragMap] at hfeeds
  have hstart : s₁.regState.regs env.target = G s₁.cur := by
    rw [hst, hregs, hcur']
  obtain ⟨G', hinv', hframe', _⟩ := (stm_finishes frag.body).arm hinv₁ hstart hfeeds hrun
  exact ⟨G', hinv', hframe.trans hframe'⟩

theorem codegenEntry_step
    (hinv : Inv env.target eb K s G (frag.body.arms ++ p) (frag.body.bb.toList ++ q))
    (hbb : frag.body.bb = some eb) (hnil : (s.blocks eb).phis = [])
    (harg : ∀ i < env.target.numMachineRegs, getArg env i = some (.arg i .ptr))
    (hfeeds : Feeds env K s.fragMap frag.body.gotos)
    (hrun : frag.codegenEntry env s = some (u, s')) :
    ∃ G', Inv env.target eb K s' G' p q ∧ Frame s s' := by
  have hstart : startRegs env.target eb s eb = some (argRegs env.target) := by
    unfold startRegs
    rw [if_neg (not_not.mpr hnil), if_pos rfl]
  obtain ⟨_, s₁, h₁, hrun₁⟩ := bind_eq_some.mp hrun
  cases h₁
  obtain ⟨bb, s₁, h₂, hrun₂⟩ := bind_eq_some.mp hrun₁
  obtain ⟨bb', hbb', hr⟩ := ofOption_eq_some.mp h₂
  rw [hbb] at hbb'
  cases hbb'
  cases hr
  obtain ⟨_, s₁, h₃, hrun₃⟩ := bind_eq_some.mp hrun₂
  cases h₃
  obtain ⟨_, s₁, h₄, hrun₄⟩ := bind_eq_some.mp hrun₃
  obtain ⟨s₀, s₂, h₅, h₆⟩ := bind_eq_some.mp h₄
  cases get_eq_some.mp h₅
  obtain ⟨r, s₂, h₇, h₈⟩ := bind_eq_some.mp h₆
  obtain ⟨r', hsetup, hr⟩ := ofOption_eq_some.mp h₇
  cases hr
  obtain ⟨st, vs⟩ := r
  obtain ⟨_, s₂, h₉, hbind⟩ := bind_eq_some.mp h₈
  cases h₉
  have hregs : st.regs env.target = G eb := by
    rw [setupStdEntry_regs harg hsetup]
    exact (hinv.consistent.start eb _ hstart).symm
  exact frag_step hinv hbb hregs hfeeds hbind hrun₄

theorem codegen_step
    (hinv : Inv env.target eb K s G (frag.body.arms ++ p) (frag.body.bb.toList ++ q))
    (htys : ∀ bb, frag.body.bb = some bb → (s.blocks bb).phis.map Phi.ty = frag.phiTys env)
    (hfeeds : Feeds env K s.fragMap frag.body.gotos) (hrun : frag.codegen env s = some (u, s')) :
    ∃ G', Inv env.target eb K s' G' p q ∧ Frame s s' := by
  obtain ⟨_, s₁, h₁, hrun₁⟩ := bind_eq_some.mp hrun
  cases h₁
  obtain ⟨bb, s₁, h₂, hrun₂⟩ := bind_eq_some.mp hrun₁
  obtain ⟨bb', hbb, hr⟩ := ofOption_eq_some.mp h₂
  cases hr
  obtain ⟨_, s₁, h₃, hrun₃⟩ := bind_eq_some.mp hrun₂
  cases h₃
  obtain ⟨_, s₁, h₄, hrun₄⟩ := bind_eq_some.mp hrun₃
  obtain ⟨_, s₂, h₅, h₆⟩ := bind_eq_some.mp h₄
  obtain ⟨hkind, hr⟩ := require_eq_some.mp h₅
  cases hr
  obtain ⟨s₀, s₂, h₇, h₈⟩ := bind_eq_some.mp h₆
  cases get_eq_some.mp h₇
  obtain ⟨r, s₂, h₉, h₁₀⟩ := bind_eq_some.mp h₈
  obtain ⟨r', hsetup, hr⟩ := ofOption_eq_some.mp h₉
  cases hr
  obtain ⟨st, vs⟩ := r
  obtain ⟨_, s₂, h₁₁, hbind⟩ := bind_eq_some.mp h₁₀
  cases h₁₁
  have hget : ∀ i < env.target.numMachineRegs, getPhi s bb i = some (.phi bb i .ptr) := by
    intro i hi
    have hty : ((s.blocks bb).phis.map Phi.ty)[i]? = some .ptr := by
      rw [htys bb hbb]
      exact phiTys_getElem? env (of_decide_eq_true hkind) hi
    rw [List.getElem?_map] at hty
    obtain ⟨phi, hphi, hphity⟩ := Option.map_eq_some_iff.mp hty
    unfold getPhi
    rw [hphi, Option.map_some, hphity]
  have hregs : st.regs env.target = G bb := by
    rw [setupFragEntry_regs hget hsetup]
    by_cases hpos : 0 < env.target.numMachineRegs
    · have hne : (s.blocks bb).phis ≠ [] := by
        intro hnil
        have hphi := hget 0 hpos
        unfold getPhi at hphi
        rw [hnil] at hphi
        cases hphi
      exact (hinv.consistent.start bb _ (startRegs_of_phis hne)).symm
    · exact regs_eq_of_none hpos _ _
  exact frag_step hinv hbb hregs hfeeds hbind hrun₄

theorem codegenAll_run (hinv : Inv env.target eb K s G (fragArms frags) (fragHeads frags))
    (htys : ∀ frag ∈ frags, ∀ bb, frag.body.bb = some bb →
      (s.blocks bb).phis.map Phi.ty = frag.phiTys env)
    (hfeeds : ∀ frag ∈ frags, Feeds env K s.fragMap frag.body.gotos)
    (hrun : Frag.codegenAll env frags s = some (u, s')) :
    ∃ G', Inv env.target eb K s' G' [] [] ∧ Frame s s' := by
  induction frags generalizing s G with
  | nil =>
    cases pure_eq_some.mp hrun
    exact ⟨G, hinv, Frame.refl _⟩
  | cons frag frags ih =>
    obtain ⟨_, s₁, h₁, h₂⟩ := bind_eq_some.mp hrun
    have hinv₀ : Inv env.target eb K s G (frag.body.arms ++ fragArms frags)
        (frag.body.bb.toList ++ fragHeads frags) := hinv
    obtain ⟨G₁, hinv₁, hframe₁⟩ :=
      codegen_step hinv₀ (htys frag List.mem_cons_self) (hfeeds frag List.mem_cons_self) h₁
    have htys₁ : ∀ f ∈ frags, ∀ bb, f.body.bb = some bb →
        (s₁.blocks bb).phis.map Phi.ty = f.phiTys env := by
      intro f hf bb hbb
      have hmem : bb ∈ fragHeads frags := mem_fragHeads.mpr ⟨f, hf, hbb⟩
      have hlt : bb < s.numBlocks :=
        hinv₀.bound bb (List.mem_append_right _ (List.mem_append_right _ hmem))
      rw [hframe₁.tys bb hlt]
      exact htys f (List.mem_cons_of_mem _ hf) bb hbb
    have hfeeds₁ : ∀ f ∈ frags, Feeds env K s₁.fragMap f.body.gotos := by
      intro f hf
      rw [hframe₁.fragMap]
      exact hfeeds f (List.mem_cons_of_mem _ hf)
    obtain ⟨G₂, hinv₂, hframe₂⟩ := ih hinv₁ htys₁ hfeeds₁ h₂
    exact ⟨G₂, hinv₂, hframe₁.trans hframe₂⟩

theorem codegenAll_internal (hrun : Frag.codegenAll env frags s = some (u, s')) :
    ∀ frag ∈ frags, frag.kind = .internal := by
  induction frags generalizing s with
  | nil => exact fun _ h => absurd h List.not_mem_nil
  | cons frag frags ih =>
    obtain ⟨_, s₁, h₁, h₂⟩ := bind_eq_some.mp hrun
    intro f hf
    rcases List.mem_cons.mp hf with hf | hf
    · obtain ⟨_, s₂, _, h₃⟩ := bind_eq_some.mp h₁
      obtain ⟨bb, s₃, _, h₄⟩ := bind_eq_some.mp h₃
      obtain ⟨_, s₄, _, h₅⟩ := bind_eq_some.mp h₄
      obtain ⟨_, s₅, h₆, _⟩ := bind_eq_some.mp h₅
      obtain ⟨_, s₆, h₇, _⟩ := bind_eq_some.mp h₆
      rw [hf]
      exact of_decide_eq_true (require_eq_some.mp h₇).1
    · exact ih h₂ f hf

end Entry

/-! ## Clusters -/

/-- The jumps of a cluster, with the number of arguments of each. -/
def Cluster.gotos (cluster : Cluster) : List (Lvar × Nat) :=
  cluster.frags.flatMap fun frag => frag.body.gotos

/-- Every jump to the fragment of a block passes an argument for its `i`-th PHI node. -/
def Passes (env : Env) (gotos : List (Lvar × Nat)) (s : Ctx) (b : Block) (i : Nat) : Prop :=
  ∀ g ∈ gotos, ∀ ref, s.fragMap g.1 = some ref → ref.bb = b → i < numExtraArgs env + g.2

/-- The PHI nodes of a generated function and the values that they receive. -/
structure PhisThreaded (env : Env) (gotos : List (Lvar × Nat)) (frags : List Frag) (entry : Block)
    (s : Ctx) : Prop where
  params : ∀ frag ∈ frags, frag.kind = .internal → ∃ bb, frag.body.bb = some bb ∧
    (s.blocks bb).phis.map Phi.ty = frag.paramTys env
  overflow : ∀ bb, s.overflowBB = some bb →
    (s.blocks bb).phis.map Phi.ty = List.replicate env.target.numMachineRegs .ptr
  complete : ∀ b (i : Nat) phi, (s.blocks b).phis[i]? = some phi →
    i < env.target.numMachineRegs ∨ Passes env gotos s b i →
    ∀ a, (phi.incoming.map Prod.snd).count a = (s.succs a).count b
  fromEdge : ∀ b (i : Nat) phi, (s.blocks b).phis[i]? = some phi →
    ∀ e ∈ phi.incoming, b ∈ s.succs e.2
  value : ∀ b (i : Nat) phi r, (s.blocks b).phis[i]? = some phi →
    env.target.machineRegs[i]? = some r.1 → ∀ e ∈ phi.incoming,
    (∃ x, (flow env.target entry s).AtEnd e.2 x) ∧
      ∀ x, (flow env.target entry s).AtEnd e.2 x → ∃ v, x r = some v ∧ e.1 = v.coerce .ptr

theorem Inv.phisThreaded {env : Env} {gotos : List (Lvar × Nat)} {eb : Block} {s : Ctx}
    {G : Block → Regs env.target Value} (h : Inv env.target eb (Passes env gotos s) s G [] [])
    (hparams : ∀ frag ∈ frags, frag.kind = .internal → ∃ bb, frag.body.bb = some bb ∧
      (s.blocks bb).phis.map Phi.ty = frag.paramTys env) :
    PhisThreaded env gotos frags eb s where
  params := hparams
  overflow bb hbb := by
    obtain ⟨_, _, hlen⟩ := h.overflow bb hbb
    refine List.eq_replicate_iff.mpr ⟨by rw [List.length_map, hlen], ?_⟩
    intro ty hty
    obtain ⟨phi, hphi, rfl⟩ := List.mem_map.mp hty
    obtain ⟨i, hi⟩ := List.mem_iff_getElem?.mp hphi
    have hlt : i < (s.blocks bb).phis.length := (List.getElem?_eq_some_iff.mp hi).1
    exact (h.phis bb i phi hi).ty (hlen ▸ hlt)
  complete b i phi hphi hpass := by
    apply (h.phis b i phi hphi).complete
    rcases hpass with hi | hpass
    · intro g _ ref _ _
      have hle : env.target.numMachineRegs ≤ numExtraArgs env := Nat.le_add_right _ _
      omega
    · exact hpass
  fromEdge b i phi hphi := (h.phis b i phi hphi).fromEdge
  value b i phi r hphi hr e he := by
    have hedge := (h.phis b i phi hphi).fromEdge e he
    have hpos : 0 < env.target.numMachineRegs :=
      Nat.lt_of_le_of_lt (Nat.zero_le i) (List.getElem?_eq_some_iff.mp hr).1
    have hlt : e.2 < s.numBlocks := by
      by_contra hge
      rw [(h.beyond e.2 (Nat.not_lt.mp hge)).2.1] at hedge
      cases hedge
    refine ⟨(h.reached hpos e.2 hlt List.not_mem_nil).exists_atEnd, ?_⟩
    intro x hx
    rw [h.consistent.atEnd_eq hx]
    exact (h.phis b i phi hphi).value r hr e he

theorem createFnTy_getElem? (attrs : Attrs) (kind : FragKind) (tys : List LlvmTy) {i : Nat}
    (hi : i < target.numMachineRegs) : (createFnTy target attrs kind tys)[i]? = some .ptr := by
  have hextra : (getArgInfo target attrs kind).nExtra = target.numMachineRegs := by
    cases kind
    · rfl
    · rfl
    · rfl
    · rfl
  unfold createFnTy createParamTys addExtraParamTys
  simp only [hextra, List.append_assoc]
  rw [List.getElem?_append_left (by rwa [List.length_replicate]), List.getElem?_replicate,
    if_pos hi]

theorem Initialized.empty (env : Env) (regState : CMRegState Value) :
    Initialized env (beginCluster regState) [] where
  nodup := List.nodup_nil
  mem b := by simp [fragArms, fragHeads, beginCluster]
  blank _ := ⟨rfl, rfl⟩
  bbs _ h := absurd h List.not_mem_nil
  phis _ h := absurd rfl h
  frags _ _ h := by cases h
  overflow := rfl

theorem Cluster.getArg_env (lookupCluster : Lvar → Option ClusterRef) (cluster : Cluster)
    (entry : Frag) {i : Nat} (hi : i < target.numMachineRegs) :
    getArg (cluster.env target lookupCluster entry) i = some (.arg i .ptr) := by
  have hty := createFnTy_getElem? cluster.attrs entry.kind
    (entry.params.map fun x => x.ty.codegen target) hi
  unfold getArg Cluster.env
  rw [hty]
  rfl

theorem Initialized.tys {env : Env} {s : Ctx} {done : List Frag} (h : Initialized env s done)
    (hfrag : frag ∈ done) (hbb : frag.body.bb = some bb) :
    bb < s.numBlocks ∧ (s.blocks bb).phis.map Phi.ty = frag.phiTys env := by
  obtain ⟨bb', hbb', hphis⟩ := h.bbs frag hfrag
  rw [hbb] at hbb'
  cases hbb'
  refine ⟨?_, ?_⟩
  · exact (h.mem bb).mp (List.mem_append_right _ (mem_fragHeads.mpr ⟨frag, hfrag, hbb⟩))
  · rw [hphis, List.map_map]
    exact List.map_id _

theorem Initialized.codegen {env : Env} {gotos : List (Lvar × Nat)} {s s' : Ctx} {entry : Frag}
    (h : Initialized env s (entry :: frags)) (hkind : entry.kind ≠ .internal)
    (harg : ∀ i < env.target.numMachineRegs, getArg env i = some (.arg i .ptr))
    (hgotos : ∀ frag ∈ entry :: frags, ∀ g ∈ frag.body.gotos, g ∈ gotos)
    (hrun : codegenFrags env (entry :: frags) s = some (u, s')) :
    ∃ eb, entry.body.bb = some eb ∧ PhisThreaded env gotos (entry :: frags) eb s' := by
  obtain ⟨_, s₁, h₁, h₂⟩ := bind_eq_some.mp hrun
  obtain ⟨eb, heb, hphis⟩ := h.bbs entry List.mem_cons_self
  have hnil : (s.blocks eb).phis = [] := by
    rw [hphis, Frag.phiTys, if_neg hkind]
    rfl
  have hfeeds : ∀ frag ∈ entry :: frags,
      Feeds env (Passes env gotos s) s.fragMap frag.body.gotos := by
    intro frag hfrag g hg ref href i hpass
    exact hpass g (hgotos frag hfrag g hg) ref href rfl
  have hinv : Inv env.target eb (Passes env gotos s) s (startLabels env.target eb s)
      (entry.body.arms ++ fragArms frags) (entry.body.bb.toList ++ fragHeads frags) :=
    h.inv heb (codegenAll_internal h₂) _
  obtain ⟨G₁, hinv₁, hframe₁⟩ :=
    codegenEntry_step hinv heb hnil harg (hfeeds entry List.mem_cons_self) h₁
  have htys₁ : ∀ frag ∈ frags, ∀ bb, frag.body.bb = some bb →
      (s₁.blocks bb).phis.map Phi.ty = frag.phiTys env := by
    intro frag hfrag bb hbb
    obtain ⟨hlt, htys⟩ := h.tys (List.mem_cons_of_mem _ hfrag) hbb
    rw [hframe₁.tys bb hlt, htys]
  have hfeeds₁ : ∀ frag ∈ frags, Feeds env (Passes env gotos s) s₁.fragMap frag.body.gotos := by
    intro frag hfrag
    rw [hframe₁.fragMap]
    exact hfeeds frag (List.mem_cons_of_mem _ hfrag)
  obtain ⟨G₂, hinv₂, hframe₂⟩ := codegenAll_run hinv₁ htys₁ hfeeds₁ h₂
  have hframe := hframe₁.trans hframe₂
  have hpass : Passes env gotos s = Passes env gotos s' := by
    unfold Passes
    rw [hframe.fragMap]
  rw [hpass] at hinv₂
  refine ⟨eb, heb, hinv₂.phisThreaded ?_⟩
  intro frag hfrag hinternal
  obtain ⟨bb, hbb, _⟩ := h.bbs frag hfrag
  obtain ⟨hlt, htys⟩ := h.tys hfrag hbb
  refine ⟨bb, hbb, ?_⟩
  rw [hframe.tys bb hlt, htys, Frag.phiTys, if_pos hinternal]

/-- Code generation for a cluster threads the registers through complete PHI nodes. -/
theorem codegen_phisThreaded (target : TargetInfo) (lookupCluster : Lvar → Option ClusterRef)
    (cluster : Cluster) (regState : CMRegState Value) (entry : Frag) (frags : List Frag) (s : Ctx)
    (hentry : cluster.frags.head? = some entry) (hkind : entry.kind ≠ .internal)
    (hrun : cluster.codegen target lookupCluster regState = some (frags, s)) :
    ∃ eb, (frags.head?.bind fun frag => frag.body.bb) = some eb ∧
      PhisThreaded (cluster.env target lookupCluster entry) cluster.gotos frags eb s := by
  obtain ⟨entry', hentry', hrun⟩ := Option.bind_eq_some_iff.mp hrun
  rw [hentry] at hentry'
  cases hentry'
  obtain ⟨r, hinit, hrun⟩ := Option.bind_eq_some_iff.mp hrun
  obtain ⟨fs, s₁⟩ := r
  obtain ⟨r, hgen, hrun⟩ := Option.bind_eq_some_iff.mp hrun
  obtain ⟨u, s₂⟩ := r
  cases hrun
  obtain ⟨hall, hkinds, hgotos⟩ := (Initialized.empty _ regState).run hinit
  obtain ⟨rest, hfrags⟩ := List.head?_eq_some_iff.mp hentry
  cases frags with
  | nil =>
    rw [hfrags] at hkinds
    cases hkinds
  | cons first frags =>
    rw [hfrags, List.map_cons, List.map_cons] at hkinds
    have hfirst : first.kind ≠ .internal := (List.cons.inj hkinds).1 ▸ hkind
    refine hall.codegen hfirst (fun i hi => cluster.getArg_env lookupCluster entry hi) ?_ hgen
    intro frag hfrag g hg
    have hmem : frag.body.gotos ∈ cluster.frags.map fun frag => frag.body.gotos := by
      rw [← hgotos]
      exact List.mem_map_of_mem hfrag
    obtain ⟨frag', hfrag', heq⟩ := List.mem_map.mp hmem
    exact List.mem_flatMap.mpr ⟨frag', hfrag', heq ▸ hg⟩

/-- A branch that sets the handler in one arm, and a loop whose sum may overflow. -/
def countingLoop : Cluster where
  attrs := ⟨false⟩
  frags := [
    ⟨.stdFun, 0, [⟨1, .ptrt⟩, ⟨2, .numt 64⟩],
      .branch none (.cmp .gt true 64) [.var 2, .num 0 64]
        (.setter none .setHdlr [.var 1] (.goto none 3 [.var 2]))
        (.goto none 3 [.num 1 64])⟩,
    ⟨.internal, 3, [⟨4, .numt 64⟩],
      .arith none (.arith .iadd 64) [.var 4, .num 1 64] ⟨5, .numt 64⟩ (.goto none 3 [.var 5])⟩]

theorem countingLoop_phisThreaded : ∃ entry frags s eb,
    countingLoop.codegen arm64Info (fun _ => none) ⟨none, fun _ => none⟩ = some (frags, s) ∧
      s.overflowBB = some 5 ∧ PhisThreaded (countingLoop.env arm64Info (fun _ => none) entry)
        countingLoop.gotos frags eb s := by
  have hrun : (countingLoop.codegen arm64Info (fun _ => none) ⟨none, fun _ => none⟩).map
      (fun r => r.2.overflowBB) = some (some 5) := by decide +kernel
  obtain ⟨r, hr, hov⟩ := Option.map_eq_some_iff.mp hrun
  obtain ⟨frags, s⟩ := r
  obtain ⟨eb, _, hthreaded⟩ :=
    codegen_phisThreaded arm64Info (fun _ => none) countingLoop ⟨none, fun _ => none⟩ _ frags s rfl
      (by decide) hr
  exact ⟨_, frags, s, eb, hr, hov, hthreaded⟩

/-- A jump to a fragment that has a parameter, without an argument. -/
def shortJump : Cluster where
  attrs := ⟨false⟩
  frags := [⟨.stdFun, 0, [], .goto none 1 []⟩,
    ⟨.internal, 1, [⟨2, .ptrt⟩], .throw none (.var 2) [] []⟩]

/-- The PHI node of the parameter has no value for the edge of the jump. -/
theorem shortJump_incomplete : ∃ frags s phi,
    shortJump.codegen arm64Info (fun _ => none) ⟨none, fun _ => none⟩ = some (frags, s) ∧
      frags.map (fun frag => (frag.kind, frag.body.bb)) =
        [(.stdFun, some 0), (.internal, some 1)] ∧
      (s.blocks 1).phis[5]? = some phi ∧
      (phi.incoming.map Prod.snd).count 0 ≠ (s.succs 0).count 1 := by
  have hrun : (shortJump.codegen arm64Info (fun _ => none) ⟨none, fun _ => none⟩).map
      (fun r => (r.1.map fun frag => (frag.kind, frag.body.bb), (r.2.blocks 1).phis[5]?,
        r.2.succs 0)) =
      some ([(.stdFun, some 0), (.internal, some 1)], some ⟨.ptr, []⟩, [1]) := by decide +kernel
  obtain ⟨r, hr, hval⟩ := Option.map_eq_some_iff.mp hrun
  obtain ⟨frags, s⟩ := r
  obtain ⟨hfrags, hphi, hsuccs⟩ := Prod.ext_iff.mp hval |>.imp id Prod.ext_iff.mp
  have hphi' : (s.blocks 1).phis[5]? = some ⟨.ptr, []⟩ := hphi
  have hsuccs' : s.succs 0 = [1] := hsuccs
  refine ⟨frags, s, ⟨.ptr, []⟩, hr, hfrags, hphi', ?_⟩
  rw [hsuccs']
  decide

end SmlnjLlvm.Codegen.Builder
