import SmlnjLlvm.Codegen.Threads

/-!
# Incoming values

The loops that add the arguments of a jump, or the registers at an overflow
test, to the PHI nodes of a block.
-/

namespace SmlnjLlvm.Codegen.Builder

open PartialState Threading

theorem Ctx.modifyBlock_blocks (s : Ctx) (b c : Block) (f : BasicBlock → BasicBlock) :
    (s.modifyBlock b f).blocks c = if c = b then f (s.blocks b) else s.blocks c := by
  unfold Ctx.modifyBlock
  by_cases h : c = b
  · subst h
    simp
  · simp [h]

theorem Ctx.modifyBlock_modifyBlock (s : Ctx) (b : Block) (f g : BasicBlock → BasicBlock) :
    (s.modifyBlock b f).modifyBlock b g = s.modifyBlock b fun blk => g (f blk) := by
  simp [Ctx.modifyBlock]

theorem ofOption_eq_some {α : Type} {o : Option α} {s : Ctx} {r : α × Ctx} :
    ofOption o s = some r ↔ ∃ a, o = some a ∧ (a, s) = r := by
  unfold ofOption
  cases o with
  | none => simp
  | some a => simp

theorem require_eq_some {p : Bool} {s : Ctx} {r : Unit × Ctx} :
    require p s = some r ↔ p = true ∧ ((), s) = r := by
  unfold require
  rw [ofOption_eq_some]
  cases p with
  | true =>
    constructor
    · intro h
      obtain ⟨_, _, h⟩ := h
      exact ⟨rfl, h⟩
    · intro h
      exact ⟨(), rfl, h.2⟩
  | false => simp

theorem createArgList_eq_some {env : Env} {kind : FragKind} {s : Ctx} {r : List Value × Ctx} :
    createArgList env kind s = some r ↔
      ∃ args, createArgs env.target env.attrs kind s.regState (.undef mlValueTy) = some args ∧
        (args, s) = r := by
  unfold createArgList
  rw [Option.map_eq_some_iff]

theorem castArg_eq_some {tgtTy : LlvmTy} {arg v : Value} {s s' : Ctx}
    (h : castArg tgtTy arg s = some (v, s')) : v = arg.coerce tgtTy ∧ s' = s := by
  unfold castArg at h
  unfold Value.coerce
  split at h
  · rename_i hty
    rw [if_pos hty]
    cases pure_eq_some.mp h
    exact ⟨rfl, rfl⟩
  · rename_i hty
    rw [if_neg hty]
    unfold castTy at h
    split at h
    · cases pure_eq_some.mp h
      exact ⟨rfl, rfl⟩
    · split at h
      · cases pure_eq_some.mp h
        exact ⟨rfl, rfl⟩
      · exact (failure_ne_some.mp h).elim

theorem paramTy_eq_some {bb : Block} {i : Nat} {s s' : Ctx} {ty : LlvmTy}
    (h : paramTy bb i s = some (ty, s')) :
    s' = s ∧ ∃ phi, (s.blocks bb).phis[i]? = some phi ∧ phi.ty = ty := by
  obtain ⟨phi, hphi, hr⟩ := Option.map_eq_some_iff.mp h
  cases hr
  exact ⟨rfl, phi, hphi, rfl⟩

def Phi.add (phi : Phi) (v : Value) (src : Block) : Phi :=
  { phi with incoming := phi.incoming ++ [(v, src)] }

theorem addIncoming_eq_some {bb src : Block} {i : Nat} {v : Value} {s s' : Ctx} {u : Unit}
    (h : addIncoming bb i v src s = some (u, s')) :
    ∃ phi, (s.blocks bb).phis[i]? = some phi ∧ v.ty = phi.ty ∧
      s' = s.modifyBlock bb fun blk => { blk with phis := blk.phis.set i (phi.add v src) } := by
  unfold addIncoming at h
  split at h
  · cases h
  · rename_i phi hphi
    split at h
    · rename_i hty
      cases h
      exact ⟨phi, hphi, hty, rfl⟩
    · cases h

/-- The PHI nodes after the arguments have been added from the position `i` on. -/
def feed (src : Block) (args : List Value) (i : Nat) (phis : List Phi) : List Phi :=
  phis.mapIdx fun j phi => { phi with
    incoming := phi.incoming ++
      (if i ≤ j then args[j - i]? else none).toList.map fun arg => (arg.coerce phi.ty, src) }

theorem feed_nil (src : Block) (i : Nat) (phis : List Phi) : feed src [] i phis = phis := by
  apply List.ext_getElem?
  intro j
  simp [feed, List.getElem?_mapIdx]

theorem feed_cons {src : Block} {arg : Value} {args : List Value} {i : Nat} {phis : List Phi}
    {phi : Phi} (h : phis[i]? = some phi) :
    feed src args (i + 1) (phis.set i (phi.add (arg.coerce phi.ty) src)) =
      feed src (arg :: args) i phis := by
  apply List.ext_getElem?
  intro j
  unfold feed
  rw [List.getElem?_mapIdx, List.getElem?_mapIdx, List.getElem?_set]
  by_cases hij : i = j
  · subst hij
    have hlt : i < phis.length := (List.getElem?_eq_some_iff.mp h).1
    rw [if_pos rfl, if_pos hlt, h, Option.map_some, Option.map_some]
    simp [Phi.add]
  · rw [if_neg hij]
    by_cases hle : i ≤ j
    · have hsub : j - i = j - (i + 1) + 1 := by omega
      have hle' : i + 1 ≤ j := by omega
      simp [hle, hle', hsub]
    · have hle' : ¬ i + 1 ≤ j := by omega
      simp [hle, hle']

theorem addFragIncoming_eq_some {bb src : Block} {args : List Value} {i : Nat} {s s' : Ctx}
    {u : Unit} (h : addFragIncoming bb src args i s = some (u, s')) :
    i + args.length ≤ max i (s.blocks bb).phis.length ∧
      s' = s.modifyBlock bb fun blk => { blk with phis := feed src args i blk.phis } := by
  induction args generalizing i s with
  | nil =>
    cases pure_eq_some.mp h
    refine ⟨Nat.le_max_left _ _, ?_⟩
    simp [Ctx.modifyBlock, feed_nil]
  | cons arg args ih =>
    obtain ⟨ty, s₁, hty, h₁⟩ := bind_eq_some.mp h
    obtain ⟨v, s₂, hcast, h₂⟩ := bind_eq_some.mp h₁
    obtain ⟨w, s₃, hadd, h₃⟩ := bind_eq_some.mp h₂
    obtain ⟨hs₁, phi, hphi, hphity⟩ := paramTy_eq_some hty
    obtain ⟨hv, hs₂⟩ := castArg_eq_some hcast
    subst hs₁ hs₂ hv hphity
    obtain ⟨phi', hphi', _, hs₃⟩ := addIncoming_eq_some hadd
    rw [hphi] at hphi'
    cases hphi'
    obtain ⟨hlen, hs'⟩ := ih h₃
    have hlt : i < (s₂.blocks bb).phis.length := (List.getElem?_eq_some_iff.mp hphi).1
    refine ⟨?_, ?_⟩
    · rw [hs₃, Ctx.modifyBlock_blocks, if_pos rfl] at hlen
      simp only [List.length_set, List.length_cons] at hlen ⊢
      omega
    · rw [hs', hs₃, Ctx.modifyBlock_modifyBlock]
      unfold Ctx.modifyBlock
      simp only [feed_cons hphi]

theorem addOverflowIncoming_eq_some {bb src : Block} {rs : List CMRegId} {i : Nat} {s s' : Ctx}
    {u : Unit} (h : addOverflowIncoming bb src rs i s = some (u, s')) :
    ∃ args, rs.mapM s.regState.get = some args ∧
      s' = s.modifyBlock bb fun blk => { blk with phis := feed src args i blk.phis } := by
  induction rs generalizing i s with
  | nil =>
    cases pure_eq_some.mp h
    refine ⟨[], rfl, ?_⟩
    simp [Ctx.modifyBlock, feed_nil]
  | cons r rs ih =>
    obtain ⟨v, s₁, hreg, h₁⟩ := bind_eq_some.mp h
    obtain ⟨w, s₂, hadd, h₂⟩ := bind_eq_some.mp h₁
    obtain ⟨v', hv, hr⟩ := Option.map_eq_some_iff.mp hreg
    cases hr
    obtain ⟨phi, hphi, hty, hs₂⟩ := addIncoming_eq_some hadd
    obtain ⟨args, hargs, hs'⟩ := ih h₂
    have hregs : s₂.regState = s.regState := by rw [hs₂]; rfl
    rw [hregs] at hargs
    refine ⟨v :: args, ?_, ?_⟩
    · rw [List.mapM_cons, hv, hargs]
      rfl
    · have hfeed := @feed_cons src v args i _ phi hphi
      rw [Value.coerce_of_eq hty] at hfeed
      rw [hs', hs₂, Ctx.modifyBlock_modifyBlock]
      unfold Ctx.modifyBlock
      simp only [hfeed]

theorem mapM_eq_some {α β : Type} {f : α → Option β} {l : List α} {vs : List β}
    (h : l.mapM f = some vs) : vs.length = l.length ∧ ∀ (i : Nat) (a : α), l[i]? = some a → vs[i]? = f a := by
  induction l generalizing vs with
  | nil =>
    cases h
    exact ⟨rfl, by simp⟩
  | cons a l ih =>
    rw [List.mapM_cons] at h
    obtain ⟨b, hb, h⟩ := Option.bind_eq_some_iff.mp h
    obtain ⟨bs, hbs, h⟩ := Option.bind_eq_some_iff.mp h
    cases h
    obtain ⟨hlen, hget⟩ := ih hbs
    refine ⟨by rw [List.length_cons, List.length_cons, hlen], ?_⟩
    intro i a' hi
    cases i with
    | zero =>
      cases hi
      exact hb.symm
    | succ i => exact hget i a' hi

/-- The number of arguments that a jump passes besides those of the fragment. -/
def numExtraArgs (env : Env) : Nat :=
  (getArgInfo env.target env.attrs .internal).nExtra +
    (getArgInfo env.target env.attrs .internal).basePtr

theorem createArgs_internal {env : Env} {st : CMRegState Value} {undef : Value} {args : List Value}
    (h : createArgs env.target env.attrs .internal st undef = some args) :
    args.length = numExtraArgs env ∧
      ∀ (i : Nat) (r : CMRegId), env.target.machineRegs[i]? = some r → args[i]? = st.get r := by
  unfold createArgs at h
  obtain ⟨extra, hextra, h⟩ := Option.bind_eq_some_iff.mp h
  cases h
  unfold addExtraArgs at hextra
  obtain ⟨regs, hregs, hextra⟩ := Option.bind_eq_some_iff.mp hextra
  obtain ⟨hlen, hget⟩ := mapM_eq_some hregs
  have hlt : ∀ (i : Nat) (r : CMRegId), env.target.machineRegs[i]? = some r → i < regs.length := by
    intro i r hi
    rw [hlen]
    exact (List.getElem?_eq_some_iff.mp hi).1
  have hnum : regs.length = env.target.numMachineRegs := hlen
  unfold numExtraArgs
  simp only [getArgInfo] at hextra ⊢
  simp only [List.replicate_zero, List.append_nil]
  by_cases hbase : env.target.usesBasePtr && env.attrs.needsBasePtr
  · simp only [hbase, if_true] at hextra ⊢
    obtain ⟨base, _, hextra⟩ := Option.bind_eq_some_iff.mp hextra
    cases hextra
    refine ⟨by rw [List.length_append, hnum]; rfl, ?_⟩
    intro i r hi
    rw [List.getElem?_append_left (hlt i r hi)]
    exact hget i r hi
  · simp only [hbase] at hextra ⊢
    cases hextra
    exact ⟨hnum, hget⟩

/-! ## Feeding the target of one edge -/

variable {target : TargetInfo}

theorem Fed.of_feed {cur : Block} {x : Regs target Value} {K : Nat → Prop} {succs : List Block}
    {b : Block} {old : List Phi} {args : List Value} (hcount : succs.count b = 1)
    (hargs : ∀ (i : Nat) r, target.machineRegs[i]? = some r.1 → args[i]? = x r)
    (hK : ∀ i < old.length, K i → i < args.length)
    (hty : ∀ (i : Nat) phi, old[i]? = some phi → i < target.numMachineRegs → phi.ty = .ptr) :
    Fed target cur x K succs b old (feed cur args 0 old) := by
  refine ⟨by rw [feed, List.length_mapIdx], ?_⟩
  intro i phi' hphi'
  unfold feed at hphi'
  rw [List.getElem?_mapIdx] at hphi'
  obtain ⟨phi, hphi, rfl⟩ := Option.map_eq_some_iff.mp hphi'
  rw [if_pos (Nat.zero_le i), Nat.sub_zero]
  have hb : b ∈ succs := List.count_pos_iff.mp (hcount ▸ Nat.one_pos)
  refine ⟨phi, args[i]?.toList.map fun arg => arg.coerce phi.ty, hphi, rfl, ?_, ?_, fun _ => hb, ?_⟩
  · rw [List.map_map]
    rfl
  · intro hKi
    have hlt : i < args.length := hK i (List.getElem?_eq_some_iff.mp hphi).1 hKi
    rw [hcount, List.getElem?_eq_getElem hlt]
    rfl
  · intro r hr v hv
    have hi : i < target.numMachineRegs := (List.getElem?_eq_some_iff.mp hr).1
    rw [hty i phi hphi hi, hargs i r hr] at hv
    obtain ⟨w, hw, rfl⟩ := List.mem_map.mp hv
    exact ⟨w, Option.mem_toList.mp hw, rfl⟩

section Terminate

variable {entry : Block} {K : Block → Nat → Prop} {s s' : Ctx} {G : Block → Regs target Value}
  {p q : List Block} {o : Block} {new : List Phi} {t : Terminator}

/-- The blocks after the PHI nodes of `o` have changed and the current block is terminated. -/
def Ctx.terminated (s : Ctx) (o : Block) (new : List Phi) (t : Terminator) : Block → BasicBlock :=
  ((s.modifyBlock o fun blk => { blk with phis := new }).modifyBlock s.cur fun blk =>
    { blk with terms := blk.terms ++ [t] }).blocks

theorem terminated_phis (b : Block) :
    (s.terminated o new t b).phis = if b = o then new else (s.blocks b).phis := by
  unfold Ctx.terminated
  rw [Ctx.modifyBlock_blocks]
  split
  · rename_i hb
    rw [Ctx.modifyBlock_blocks, hb]
    split
    · rfl
    · rfl
  · rw [Ctx.modifyBlock_blocks]
    split
    · rfl
    · rfl

theorem terminated_assigns (b : Block) :
    (s.terminated o new t b).assigns = (s.blocks b).assigns := by
  unfold Ctx.terminated
  rw [Ctx.modifyBlock_blocks]
  split
  · rename_i hb
    rw [Ctx.modifyBlock_blocks, hb]
    split
    · rename_i ho
      rw [ho]
    · rfl
  · rw [Ctx.modifyBlock_blocks]
    split
    · rename_i ho
      rw [ho]
    · rfl

theorem terminated_terms (b : Block) :
    (s.terminated o new t b).terms =
      if b = s.cur then (s.blocks b).terms ++ [t] else (s.blocks b).terms := by
  unfold Ctx.terminated
  rw [Ctx.modifyBlock_blocks]
  split
  · rename_i hb
    rw [Ctx.modifyBlock_blocks, hb]
    split
    · rename_i ho
      rw [ho]
    · rfl
  · rw [Ctx.modifyBlock_blocks]
    split
    · rename_i ho
      rw [ho]
    · rfl

theorem Inv.terminate {ts : List Block} (h : Inv target entry K s G (ts ++ p) q)
    (hat : At target s G (ts ++ p) q) (hblocks : s'.blocks = s.terminated o new t)
    (hnum : s'.numBlocks = s.numBlocks) (hov : s'.overflowBB = s.overflowBB)
    (hfrag : s'.fragMap = s.fragMap)
    (hfed : Fed target s.cur (endRegs s G s.cur) (K o) t.succs o (s.blocks o).phis new)
    (hother : ∀ b ∈ t.succs, b ≠ o → (s.blocks b).phis = [])
    (hlt : ∀ b ∈ t.succs, b < s.numBlocks) (hts : ∀ b ∈ ts, b ∈ t.succs)
    (htarget : ∀ b ∈ t.succs, b ∈ ts ∨ startRegs target entry s b ≠ none ∨
      G b = endRegs s G s.cur)
    (hpend : ∀ b ∈ t.succs, b ∉ p) :
    Inv target entry K s' (Flow.enter G ts (endRegs s G s.cur)) p (ts ++ q) ∧ Frame s s' := by
  have hopen := hat.isOpen
  have hcur : s'.succs s.cur = t.succs := by
    unfold Ctx.succs at hopen ⊢
    rw [hblocks, terminated_terms, if_pos rfl, List.flatMap_append, hopen]
    exact List.append_nil _
  have hsuccs : ∀ b, b ≠ s.cur → s'.succs b = s.succs b := by
    intro b hb
    unfold Ctx.succs
    rw [hblocks, terminated_terms, if_neg hb]
  have hphis : ∀ b, Fed target s.cur (endRegs s G s.cur) (K b) t.succs b (s.blocks b).phis
      (s'.blocks b).phis := by
    intro b
    rw [hblocks, terminated_phis]
    by_cases hb : b = o
    · rw [if_pos hb, hb]
      exact hfed
    · rw [if_neg hb]
      exact Fed.refl fun hne hmem => hne (hother b hmem hb)
  refine ⟨?_, Nat.le_of_eq hnum.symm, hfrag, fun b _ => (hphis b).tys⟩
  refine h.close hat hnum hov hfrag ?_ hcur hsuccs hphis hlt hts htarget hpend
  intro b
  rw [hblocks, terminated_assigns]

theorem Inv.terminatePlain {ts : List Block} (h : Inv target entry K s G (ts ++ p) q)
    (hat : At target s G (ts ++ p) q)
    (hs' : s' = s.modifyBlock s.cur fun blk => { blk with terms := blk.terms ++ [t] })
    (hts : ∀ b, b ∈ t.succs ↔ b ∈ ts) :
    Inv target entry K s' (Flow.enter G ts (endRegs s G s.cur)) p (ts ++ q) ∧ Frame s s' := by
  have hmem : ∀ b ∈ t.succs, b ∈ ts ++ p := fun b hb => List.mem_append_left _ ((hts b).mp hb)
  have hnil : ∀ b ∈ t.succs, (s.blocks b).phis = [] := fun b hb =>
    (startRegs_eq_none.mp (h.untargeted b (hmem b hb)).1).1
  have hsame : s.modifyBlock s.cur (fun blk => { blk with phis := (s.blocks s.cur).phis }) = s := by
    unfold Ctx.modifyBlock
    rw [Function.update_eq_self]
  subst hs'
  refine h.terminate (o := s.cur) (t := t) hat ?_ rfl rfl rfl (Fed.refl fun hne hcur =>
    hne (hnil _ hcur)) (fun b hb _ => hnil b hb) (fun b hb => h.bound b
      (List.mem_append_left _ (hmem b hb))) (fun b hb => (hts b).mpr hb)
    (fun b hb => Or.inl ((hts b).mp hb)) ?_
  · unfold Ctx.terminated
    rw [hsame]
  · intro b hb hp
    have hnodup := (List.nodup_append.mp (List.nodup_append.mp h.nodup).1).2.2
    exact hnodup b ((hts b).mp hb) b hp rfl

end Terminate

end SmlnjLlvm.Codegen.Builder
