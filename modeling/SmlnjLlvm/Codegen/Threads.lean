import SmlnjLlvm.Codegen.Cfg
import Mathlib.Data.List.Nodup

/-!
# The invariant of code generation

The function that is being generated is a flow graph that threads the register
values. The invariant relates the PHI nodes to the edges that exist so far, for
blocks of three sorts: pending ones that no edge enters yet, ready ones that
wait for their code, and the ones whose code is complete.
-/

namespace SmlnjLlvm.Codegen.Builder

open Threading

variable {target : TargetInfo}

/-- The registers on entry to a block with PHI nodes. -/
def phiRegs (target : TargetInfo) (bb : Block) : Regs target Value :=
  fun r => some (.phi bb (target.machineRegs.idxOf r.1) .ptr)

/-- The registers on entry to the function. -/
def argRegs (target : TargetInfo) : Regs target Value :=
  fun r => some (.arg (target.machineRegs.idxOf r.1) .ptr)

/-- The registers that a block starts from whichever edge enters it. -/
def startRegs (target : TargetInfo) (entry : Block) (s : Ctx) (b : Block) :
    Option (Regs target Value) :=
  if (s.blocks b).phis ≠ [] then some (phiRegs target b)
  else if b = entry then some (argRegs target)
  else none

/-- The function as a flow graph: statements change the registers by their assignments. -/
def flow (target : TargetInfo) (entry : Block) (s : Ctx) : Flow Block (Regs target Value) where
  succs := s.succs
  start := startRegs target entry s
  effect b := applyAssigns (s.blocks b).assigns

@[simp] theorem flow_succs (entry : Block) (s : Ctx) : (flow target entry s).succs = s.succs := rfl

@[simp] theorem flow_start (entry : Block) (s : Ctx) :
    (flow target entry s).start = startRegs target entry s := rfl

@[simp] theorem flow_effect (entry : Block) (s : Ctx) (b : Block) :
    (flow target entry s).effect b = applyAssigns (s.blocks b).assigns := rfl

theorem startRegs_eq_none {entry : Block} {s : Ctx} {b : Block} :
    startRegs target entry s b = none ↔ (s.blocks b).phis = [] ∧ b ≠ entry := by
  unfold startRegs
  by_cases hp : (s.blocks b).phis = []
  · rw [if_neg (not_not.mpr hp)]
    by_cases hb : b = entry
    · rw [if_pos hb]
      simp [hb]
    · rw [if_neg hb]
      simp [hp, hb]
  · rw [if_pos hp]
    simp [hp]

theorem startRegs_of_phis {entry : Block} {s : Ctx} {b : Block} (h : (s.blocks b).phis ≠ []) :
    startRegs target entry s b = some (phiRegs target b) := if_pos h

theorem startRegs_congr {entry : Block} {s s' : Ctx} {b : Block}
    (h : (s'.blocks b).phis = [] ↔ (s.blocks b).phis = []) :
    startRegs target entry s' b = startRegs target entry s b := by
  unfold startRegs
  simp only [ne_eq, h]

/-- The registers at the end of a block, when it starts from `G`. -/
def endRegs (s : Ctx) (G : Block → Regs target Value) (b : Block) : Regs target Value :=
  applyAssigns (s.blocks b).assigns (G b)

/-- What holds of the `i`-th PHI node of the block `b`. -/
structure PhiOk (target : TargetInfo) (K : Block → Nat → Prop) (s : Ctx)
    (G : Block → Regs target Value) (b : Block) (i : Nat) (phi : Phi) : Prop where
  complete : K b i → ∀ a, (phi.incoming.map Prod.snd).count a = (s.succs a).count b
  fromEdge : ∀ e ∈ phi.incoming, b ∈ s.succs e.2
  value : ∀ r, target.machineRegs[i]? = some r.1 → ∀ e ∈ phi.incoming,
    ∃ v, endRegs s G e.2 r = some v ∧ e.1 = v.coerce .ptr
  ty : i < target.numMachineRegs → phi.ty = .ptr

/--
The invariant between statements. `K` tells the PHI nodes that every jump
passes an argument for, `G` gives the registers at the start of each block, `p`
are the pending blocks and `q` the ready ones.
-/
structure Inv (target : TargetInfo) (entry : Block) (K : Block → Nat → Prop) (s : Ctx)
    (G : Block → Regs target Value) (p q : List Block) : Prop where
  nodup : (p ++ q).Nodup
  bound : ∀ b ∈ p ++ q, b < s.numBlocks
  blank : ∀ b ∈ p ++ q, s.succs b = [] ∧ (s.blocks b).assigns = []
  untargeted : ∀ b ∈ p, startRegs target entry s b = none ∧ ∀ a, b ∉ s.succs a
  beyond : ∀ b, s.numBlocks ≤ b →
    (s.blocks b).phis = [] ∧ s.succs b = [] ∧ (s.blocks b).assigns = []
  entry_lt : entry < s.numBlocks
  target_lt : ∀ a b, b ∈ s.succs a → b < s.numBlocks
  phis : ∀ b i phi, (s.blocks b).phis[i]? = some phi → PhiOk target K s G b i phi
  consistent : (flow target entry s).Consistent G
  reached : 0 < target.numMachineRegs → ∀ b < s.numBlocks, b ∉ p →
    (flow target entry s).Reached b
  overflow : ∀ b, s.overflowBB = some b → b < s.numBlocks ∧ b ∉ p ∧
    (s.blocks b).phis.length = target.numMachineRegs
  frags : ∀ lab frag, s.fragMap lab = some frag → frag.bb < s.numBlocks ∧ frag.bb ∉ p

/-- The current block is open, and the register state is the one at its end. -/
structure At (target : TargetInfo) (s : Ctx) (G : Block → Regs target Value) (p q : List Block) :
    Prop where
  lt : s.cur < s.numBlocks
  not_mem : s.cur ∉ p ++ q
  isOpen : s.succs s.cur = []
  regs : s.regState.regs target = endRegs s G s.cur

/-- What later code leaves as it is. -/
structure Frame (s s' : Ctx) : Prop where
  numBlocks : s.numBlocks ≤ s'.numBlocks
  fragMap : s'.fragMap = s.fragMap
  tys : ∀ b < s.numBlocks, (s'.blocks b).phis.map Phi.ty = (s.blocks b).phis.map Phi.ty

theorem Frame.refl (s : Ctx) : Frame s s := ⟨Nat.le_refl _, rfl, fun _ _ => rfl⟩

theorem Frame.trans {s₁ s₂ s₃ : Ctx} (h : Frame s₁ s₂) (h' : Frame s₂ s₃) : Frame s₁ s₃ := by
  refine ⟨Nat.le_trans h.numBlocks h'.numBlocks, h'.fragMap.trans h.fragMap, ?_⟩
  intro b hb
  rw [h'.tys b (Nat.lt_of_lt_of_le hb h.numBlocks), h.tys b hb]

section Steps

variable {entry : Block} {K : Block → Nat → Prop} {s s' : Ctx} {G G' : Block → Regs target Value}
  {p q : List Block}

theorem Straight.succs {mode : Bool} (h : Straight target mode s s') (b : Block) :
    s'.succs b = s.succs b := by
  unfold Ctx.succs
  by_cases hb : b = s.cur
  · rw [hb, h.terms]
  · rw [h.other b hb]

theorem Straight.phis_eq {mode : Bool} (h : Straight target mode s s') (b : Block) :
    (s'.blocks b).phis = (s.blocks b).phis := by
  by_cases hb : b = s.cur
  · rw [hb, h.phis]
  · rw [h.other b hb]

theorem Straight.frame {mode : Bool} (h : Straight target mode s s') : Frame s s' :=
  ⟨Nat.le_of_eq h.numBlocks.symm, h.fragMap, fun b _ => by rw [h.phis_eq b]⟩

theorem Straight.endRegs_of_ne {mode : Bool} (h : Straight target mode s s') {b : Block}
    (hb : b ≠ s.cur) : endRegs s' G b = endRegs s G b := by
  unfold endRegs
  rw [h.other b hb]

theorem Inv.straight {mode : Bool} (h : Inv target entry K s G p q) (hat : At target s G p q)
    (hs : Straight target mode s s') : Inv target entry K s' G p q ∧ At target s' G p q := by
  have hsuccs : s'.succs = s.succs := funext hs.succs
  have hstart : startRegs target entry s' = startRegs target entry s :=
    funext fun b => startRegs_congr (by rw [hs.phis_eq b])
  have hother : ∀ b, s.succs b ≠ [] → endRegs s' G b = endRegs s G b := by
    intro b hb
    apply hs.endRegs_of_ne
    intro hcur
    exact hb (hcur ▸ hat.isOpen)
  have hne : ∀ b ∈ p ++ q, b ≠ s.cur := by
    intro b hb hcur
    exact hat.not_mem (hcur ▸ hb)
  refine ⟨?_, ?_⟩
  · exact {
      nodup := h.nodup
      bound := fun b hb => hs.numBlocks ▸ h.bound b hb
      blank := fun b hb => by
        rw [hsuccs, hs.other b (hne b hb)]
        exact h.blank b hb
      untargeted := fun b hb => by
        rw [hsuccs, hstart]
        exact h.untargeted b hb
      beyond := fun b hb => by
        rw [hs.numBlocks] at hb
        have hcur : b ≠ s.cur := (Nat.lt_of_lt_of_le hat.lt hb).ne'
        rw [hsuccs, hs.other b hcur]
        exact h.beyond b hb
      entry_lt := hs.numBlocks ▸ h.entry_lt
      target_lt := fun a b hab => by
        rw [hsuccs] at hab
        exact hs.numBlocks ▸ h.target_lt a b hab
      phis := fun b i phi hphi => by
        rw [hs.phis_eq b] at hphi
        have hok := h.phis b i phi hphi
        refine ⟨?_, ?_, ?_, hok.ty⟩
        · rw [hsuccs]
          exact hok.complete
        · rw [hsuccs]
          exact hok.fromEdge
        · intro r hr e he
          rw [hother e.2 (List.ne_nil_of_mem (hok.fromEdge e he))]
          exact hok.value r hr e he
      consistent := h.consistent.congr hsuccs hstart hother
      reached := fun hpos b hb hbp => by
        rw [hs.numBlocks] at hb
        apply (h.reached hpos b hb hbp).mono
        · intro a c hc
          rwa [flow_succs, hsuccs]
        · intro c hc
          rwa [flow_start, hstart]
      overflow := fun b hb => by
        rw [hs.overflowBB] at hb
        rw [hs.numBlocks, hs.phis_eq b]
        exact h.overflow b hb
      frags := fun lab frag hfrag => by
        rw [hs.fragMap] at hfrag
        rw [hs.numBlocks]
        exact h.frags lab frag hfrag }
  · obtain ⟨log, _, hlog, hregs⟩ := hs.assigns
    refine ⟨?_, ?_, ?_, ?_⟩
    · rw [hs.cur, hs.numBlocks]
      exact hat.lt
    · rw [hs.cur]
      exact hat.not_mem
    · rw [hs.cur, hsuccs]
      exact hat.isOpen
    · rw [hregs, hat.regs, hs.cur]
      unfold endRegs
      rw [hlog, applyAssigns_append]

/-! ## New blocks -/

theorem Inv.newBB (h : Inv target entry K s G p q) :
    Inv target entry K { s with numBlocks := s.numBlocks + 1 } G (s.numBlocks :: p) q := by
  have hbeyond := h.beyond s.numBlocks (Nat.le_refl _)
  have hfresh : ∀ b ∈ p ++ q, b ≠ s.numBlocks := fun b hb => (h.bound b hb).ne
  have hcons : ∀ b, b < s.numBlocks → b ∉ p → b ∉ s.numBlocks :: p := by
    intro b hlt hbp hmem
    rcases List.mem_cons.mp hmem with hb | hmem
    · exact Nat.lt_irrefl _ (hb ▸ hlt)
    · exact hbp hmem
  exact {
    nodup := List.nodup_cons.mpr ⟨fun hmem => hfresh _ hmem rfl, h.nodup⟩
    bound := fun b hb => by
      rcases List.mem_cons.mp hb with hb | hb
      · exact hb ▸ Nat.lt_succ_self _
      · exact Nat.lt_succ_of_lt (h.bound b hb)
    blank := fun b hb => by
      rcases List.mem_cons.mp hb with hb | hb
      · exact hb ▸ hbeyond.2
      · exact h.blank b hb
    untargeted := fun b hb => by
      rcases List.mem_cons.mp hb with hb | hb
      · subst hb
        refine ⟨startRegs_eq_none.mpr ⟨hbeyond.1, h.entry_lt.ne'⟩, ?_⟩
        intro a ha
        exact Nat.lt_irrefl _ (h.target_lt a _ ha)
      · exact h.untargeted b hb
    beyond := fun b hb => h.beyond b (Nat.le_of_succ_le hb)
    entry_lt := Nat.lt_succ_of_lt h.entry_lt
    target_lt := fun a b hab => Nat.lt_succ_of_lt (h.target_lt a b hab)
    phis := fun b i phi hphi => by
      have hok := h.phis b i phi hphi
      exact ⟨hok.complete, hok.fromEdge, hok.value, hok.ty⟩
    consistent := h.consistent
    reached := fun hpos b hb hbp => by
      have hne : b ≠ s.numBlocks := fun hb' => hbp (hb' ▸ List.mem_cons_self)
      have hlt : b < s.numBlocks := Nat.lt_of_le_of_ne (Nat.le_of_lt_succ hb) hne
      exact h.reached hpos b hlt fun hp => hbp (List.mem_cons_of_mem _ hp)
    overflow := fun b hb => by
      obtain ⟨hlt, hbp, hlen⟩ := h.overflow b hb
      exact ⟨Nat.lt_succ_of_lt hlt, hcons b hlt hbp, hlen⟩
    frags := fun lab frag hfrag => by
      obtain ⟨hlt, hfp⟩ := h.frags lab frag hfrag
      exact ⟨Nat.lt_succ_of_lt hlt, hcons frag.bb hlt hfp⟩ }

theorem Inv.addOverflow (h : Inv target entry K s G p q) (hnum : s'.numBlocks = s.numBlocks + 1)
    (hother : ∀ b, b ≠ s.numBlocks → s'.blocks b = s.blocks b)
    (hsuccs : s'.succs s.numBlocks = [])
    (hphis : (s'.blocks s.numBlocks).phis = List.replicate target.numMachineRegs ⟨.ptr, []⟩)
    (hov : s'.overflowBB = some s.numBlocks) (hfrag : s'.fragMap = s.fragMap) :
    Inv target entry K s' (Function.update G s.numBlocks (phiRegs target s.numBlocks)) p q := by
  have hbeyond := h.beyond s.numBlocks (Nat.le_refl _)
  have hsuccs' : s'.succs = s.succs := by
    funext b
    by_cases hb : b = s.numBlocks
    · rw [hb, hsuccs, hbeyond.2.1]
    · unfold Ctx.succs
      rw [hother b hb]
  have hne : ∀ b ∈ p ++ q, b ≠ s.numBlocks := fun b hb => (h.bound b hb).ne
  have hin : ∀ a, s.numBlocks ∉ s.succs a := fun a ha => Nat.lt_irrefl _ (h.target_lt a _ ha)
  have hstart : ∀ b, b ≠ s.numBlocks → startRegs target entry s' b = startRegs target entry s b :=
    fun b hb => startRegs_congr (by rw [hother b hb])
  have hend : ∀ b, b ≠ s.numBlocks →
      endRegs s' (Function.update G s.numBlocks (phiRegs target s.numBlocks)) b =
        endRegs s G b := by
    intro b hb
    unfold endRegs
    rw [hother b hb, Function.update_of_ne hb]
  have hnonempty : 0 < target.numMachineRegs → (s'.blocks s.numBlocks).phis ≠ [] := by
    intro hpos hnil
    rw [hphis, List.replicate_eq_nil_iff] at hnil
    exact hpos.ne' hnil
  exact {
    nodup := h.nodup
    bound := fun b hb => hnum ▸ Nat.lt_succ_of_lt (h.bound b hb)
    blank := fun b hb => by
      rw [hsuccs', hother b (hne b hb)]
      exact h.blank b hb
    untargeted := fun b hb => by
      rw [hsuccs', hstart b (hne b (List.mem_append_left _ hb))]
      exact h.untargeted b hb
    beyond := fun b hb => by
      rw [hnum] at hb
      rw [hsuccs', hother b (Nat.lt_of_succ_le hb).ne']
      exact h.beyond b (Nat.le_of_succ_le hb)
    entry_lt := hnum ▸ Nat.lt_succ_of_lt h.entry_lt
    target_lt := fun a b hab => by
      rw [hsuccs'] at hab
      exact hnum ▸ Nat.lt_succ_of_lt (h.target_lt a b hab)
    phis := fun b i phi hphi => by
      by_cases hb : b = s.numBlocks
      · subst hb
        rw [hphis, List.getElem?_replicate] at hphi
        split at hphi
        · cases hphi
          refine ⟨?_, by simp, by simp, fun _ => rfl⟩
          intro _ a
          rw [hsuccs', List.count_eq_zero.mpr (hin a)]
          rfl
        · cases hphi
      · rw [hother b hb] at hphi
        have hok := h.phis b i phi hphi
        refine ⟨?_, ?_, ?_, hok.ty⟩
        · rw [hsuccs']
          exact hok.complete
        · rw [hsuccs']
          exact hok.fromEdge
        · intro r hr e he
          have hsrc : e.2 ≠ s.numBlocks := by
            intro hsrc
            have hedge := hok.fromEdge e he
            rw [hsrc, hbeyond.2.1] at hedge
            cases hedge
          rw [hend e.2 hsrc]
          exact hok.value r hr e he
    consistent := by
      refine h.consistent.addStart hbeyond.2.1 hin hsuccs' ?_ hstart ?_
      · intro a ha
        rw [flow_effect, flow_effect, hother a ha]
      · intro x hx
        rw [flow_start, startRegs] at hx
        split at hx
        · cases hx
          rfl
        · rw [if_neg h.entry_lt.ne'] at hx
          cases hx
    reached := fun hpos b hb hbp => by
      by_cases hbo : b = s.numBlocks
      · apply Threading.Flow.Reached.start
        rw [flow_start, startRegs_of_phis]
        · exact Option.some_ne_none _
        · exact hbo ▸ hnonempty hpos
      · rw [hnum] at hb
        have hlt : b < s.numBlocks := Nat.lt_of_le_of_ne (Nat.le_of_lt_succ hb) hbo
        apply (h.reached hpos b hlt hbp).mono
        · intro a c hc
          rwa [flow_succs, hsuccs']
        · intro c hc
          by_cases hco : c = s.numBlocks
          · rw [flow_start, startRegs_of_phis]
            · exact Option.some_ne_none _
            · exact hco ▸ hnonempty hpos
          · rwa [flow_start, hstart c hco]
    overflow := fun b hb => by
      rw [hov] at hb
      cases hb
      refine ⟨hnum ▸ Nat.lt_succ_self _, ?_, ?_⟩
      · exact fun hp => hne _ (List.mem_append_left _ hp) rfl
      · rw [hphis, List.length_replicate]
    frags := fun lab frag hf => by
      obtain ⟨hlt, hfp⟩ := h.frags lab frag (hfrag ▸ hf)
      exact ⟨hnum ▸ Nat.lt_succ_of_lt hlt, hfp⟩ }

/-! ## Edges -/

/--
The PHI nodes of the block `b` while the edges to `succs` are added from `cur`,
where the registers are `x`: each gets one value for each edge.
-/
structure Fed (target : TargetInfo) (cur : Block) (x : Regs target Value) (K : Nat → Prop)
    (succs : List Block) (b : Block) (old new : List Phi) : Prop where
  length : new.length = old.length
  step : ∀ (i : Nat) (phi' : Phi), new[i]? = some phi' → ∃ (phi : Phi) (vs : List Value),
    old[i]? = some phi ∧ phi'.ty = phi.ty ∧
      phi'.incoming = phi.incoming ++ vs.map (fun v => (v, cur)) ∧
      (K i → vs.length = succs.count b) ∧ (vs ≠ [] → b ∈ succs) ∧
      ∀ r, target.machineRegs[i]? = some r.1 → ∀ v ∈ vs, ∃ w, x r = some w ∧ v = w.coerce .ptr

theorem Fed.refl {cur : Block} {x : Regs target Value} {K : Nat → Prop} {succs : List Block}
    {b : Block} {old : List Phi} (h : old ≠ [] → b ∉ succs) :
    Fed target cur x K succs b old old := by
  refine ⟨rfl, ?_⟩
  intro i phi hphi
  have hb : b ∉ succs := h (List.ne_nil_of_mem (List.mem_of_getElem? hphi))
  refine ⟨phi, [], hphi, rfl, by simp, ?_, by simp, by simp⟩
  intro _
  rw [List.count_eq_zero.mpr hb, List.length_nil]

theorem Fed.nil_iff {cur : Block} {x : Regs target Value} {K : Nat → Prop} {succs : List Block}
    {b : Block} {old new : List Phi} (h : Fed target cur x K succs b old new) :
    new = [] ↔ old = [] := by
  rw [← List.length_eq_zero_iff, ← List.length_eq_zero_iff, h.length]

theorem Fed.tys {cur : Block} {x : Regs target Value} {K : Nat → Prop} {succs : List Block}
    {b : Block} {old new : List Phi} (h : Fed target cur x K succs b old new) :
    new.map Phi.ty = old.map Phi.ty := by
  apply List.ext_getElem?
  intro i
  rw [List.getElem?_map, List.getElem?_map]
  cases hnew : new[i]? with
  | none =>
    rw [List.getElem?_eq_none_iff, h.length] at hnew
    rw [List.getElem?_eq_none hnew]
  | some phi' =>
    obtain ⟨phi, vs, hold, hty, _⟩ := h.step i phi' hnew
    rw [hold, Option.map_some, Option.map_some, hty]

/--
The current block is closed by a terminator. The pending blocks `ts` among its
successors become ready, and start from the registers at the end of the block.
-/
theorem Inv.close {ts : List Block} (h : Inv target entry K s G (ts ++ p) q)
    (hat : At target s G (ts ++ p) q) {succs : List Block} (hnum : s'.numBlocks = s.numBlocks)
    (hov : s'.overflowBB = s.overflowBB) (hfrag : s'.fragMap = s.fragMap)
    (hassigns : ∀ b, (s'.blocks b).assigns = (s.blocks b).assigns)
    (hcur : s'.succs s.cur = succs) (hsuccs : ∀ b, b ≠ s.cur → s'.succs b = s.succs b)
    (hphis : ∀ b, Fed target s.cur (endRegs s G s.cur) (K b) succs b (s.blocks b).phis
      (s'.blocks b).phis)
    (hlt : ∀ b ∈ succs, b < s.numBlocks) (hts : ∀ b ∈ ts, b ∈ succs)
    (htarget : ∀ b ∈ succs, b ∈ ts ∨ startRegs target entry s b ≠ none ∨
      G b = endRegs s G s.cur)
    (hpend : ∀ b ∈ succs, b ∉ p) :
    Inv target entry K s' (Flow.enter G ts (endRegs s G s.cur)) p (ts ++ q) := by
  have hstart : startRegs target entry s' = startRegs target entry s :=
    funext fun b => startRegs_congr (hphis b).nil_iff
  have hmem : ∀ {b}, b ∈ p ++ (ts ++ q) → b ∈ (ts ++ p) ++ q := by
    intro b hb
    simp only [List.mem_append] at hb ⊢
    tauto
  have hne : ∀ {b}, b ∈ (ts ++ p) ++ q → b ≠ s.cur := by
    intro b hb hcur
    exact hat.not_mem (hcur ▸ hb)
  have hcurts : s.cur ∉ ts :=
    fun hmem => hat.not_mem (List.mem_append_left _ (List.mem_append_left _ hmem))
  have hend : ∀ b, b ∉ ts →
      endRegs s' (Flow.enter G ts (endRegs s G s.cur)) b = endRegs s G b := by
    intro b hb
    unfold endRegs
    rw [hassigns, Flow.enter_of_not_mem _ hb]
  have hsource : ∀ a b, b ∈ s.succs a → a ≠ s.cur ∧ a ∉ ts := by
    intro a b hab
    refine ⟨?_, ?_⟩
    · intro ha
      rw [ha, hat.isOpen] at hab
      cases hab
    · intro ha
      rw [(h.blank a (List.mem_append_left _ (List.mem_append_left _ ha))).1] at hab
      cases hab
  have hreach : ∀ b, (flow target entry s).Reached b → (flow target entry s').Reached b := by
    intro b hb
    apply hb.mono
    · intro a c hc
      rwa [flow_succs, hsuccs a (hsource a c hc).1]
    · intro c hc
      rwa [flow_start, hstart]
  exact {
    nodup := by
      refine h.nodup.perm ?_
      rw [List.append_assoc]
      exact List.perm_append_comm_assoc ts p q
    bound := fun b hb => hnum ▸ h.bound b (hmem hb)
    blank := fun b hb => by
      rw [hsuccs b (hne (hmem hb)), hassigns]
      exact h.blank b (hmem hb)
    untargeted := fun b hb => by
      obtain ⟨hnone, hin⟩ := h.untargeted b (List.mem_append_right _ hb)
      refine ⟨hstart ▸ hnone, ?_⟩
      intro a ha
      by_cases hac : a = s.cur
      · rw [hac, hcur] at ha
        exact hpend b ha hb
      · rw [hsuccs a hac] at ha
        exact hin a ha
    beyond := fun b hb => by
      rw [hnum] at hb
      obtain ⟨hnil, hout, hlog⟩ := h.beyond b hb
      rw [(hphis b).nil_iff, hsuccs b (Nat.lt_of_lt_of_le hat.lt hb).ne', hassigns]
      exact ⟨hnil, hout, hlog⟩
    entry_lt := hnum ▸ h.entry_lt
    target_lt := fun a b hab => by
      rw [hnum]
      by_cases hac : a = s.cur
      · rw [hac, hcur] at hab
        exact hlt b hab
      · rw [hsuccs a hac] at hab
        exact h.target_lt a b hab
    phis := fun b i phi' hphi' => by
      obtain ⟨phi, vs, hphi, hty, hinc, hlen, hedge, hval⟩ := (hphis b).step i phi' hphi'
      have hok := h.phis b i phi hphi
      refine ⟨?_, ?_, ?_, fun hi => hty.trans (hok.ty hi)⟩
      · intro hK a
        have hnew : (vs.map fun v => (v, s.cur)).map Prod.snd = List.replicate vs.length s.cur := by
          rw [List.map_map]
          exact List.map_const'
        rw [hinc, List.map_append, List.count_append, hok.complete hK a, hnew,
          List.count_replicate]
        by_cases hac : a = s.cur
        · rw [hac, hat.isOpen, hcur, hlen hK]
          simp
        · rw [hsuccs a hac]
          simp [Ne.symm hac]
      · intro e he
        rw [hinc, List.mem_append] at he
        rcases he with he | he
        · have hb := hok.fromEdge e he
          rwa [hsuccs e.2 (hsource e.2 b hb).1]
        · obtain ⟨v, hv, rfl⟩ := List.mem_map.mp he
          rw [hcur]
          exact hedge (List.ne_nil_of_mem hv)
      · intro r hr e he
        rw [hinc, List.mem_append] at he
        rcases he with he | he
        · rw [hend e.2 (hsource e.2 b (hok.fromEdge e he)).2]
          exact hok.value r hr e he
        · obtain ⟨v, hv, rfl⟩ := List.mem_map.mp he
          rw [hend s.cur hcurts]
          exact hval r hr v hv
    consistent := by
      refine h.consistent.close hat.isOpen hcurts ?_ hsuccs hstart ?_ ?_
      · intro b hb
        obtain ⟨hnone, hin⟩ := h.untargeted b (List.mem_append_left _ hb)
        exact ⟨(h.blank b (List.mem_append_left _ (List.mem_append_left _ hb))).1, hnone, hin⟩
      · funext b
        rw [flow_effect, flow_effect, hassigns]
      · intro b hb
        rw [flow_succs, hcur] at hb
        exact htarget b hb
    reached := fun hpos b hb hbp => by
      rw [hnum] at hb
      by_cases hbt : b ∈ ts
      · have hcurp : s.cur ∉ ts ++ p := fun hmem => hat.not_mem (List.mem_append_left _ hmem)
        refine .step (hreach _ (h.reached hpos s.cur hat.lt hcurp)) ?_
        rw [flow_succs, hcur]
        exact hts b hbt
      · apply hreach
        apply h.reached hpos b hb
        intro hmem
        rcases List.mem_append.mp hmem with hmem | hmem
        · exact hbt hmem
        · exact hbp hmem
    overflow := fun b hb => by
      rw [hov] at hb
      obtain ⟨hlt, hbp, hlen⟩ := h.overflow b hb
      rw [hnum, (hphis b).length]
      exact ⟨hlt, fun hp => hbp (List.mem_append_right _ hp), hlen⟩
    frags := fun lab frag hf => by
      obtain ⟨hlt, hfp⟩ := h.frags lab frag (hfrag ▸ hf)
      exact ⟨hnum ▸ hlt, fun hp => hfp (List.mem_append_right _ hp)⟩ }

theorem Inv.congr (h : Inv target entry K s G p q) (hnum : s'.numBlocks = s.numBlocks)
    (hov : s'.overflowBB = s.overflowBB) (hfrag : s'.fragMap = s.fragMap)
    (hphis : ∀ b, (s'.blocks b).phis = (s.blocks b).phis) (hsuccs : s'.succs = s.succs)
    (hassigns : ∀ b, (s'.blocks b).assigns = (s.blocks b).assigns) :
    Inv target entry K s' G p q := by
  have hstart : startRegs target entry s' = startRegs target entry s :=
    funext fun b => startRegs_congr (by rw [hphis b])
  have hend : endRegs s' G = endRegs s G := by
    funext b
    unfold endRegs
    rw [hassigns]
  have hflow : flow target entry s' = flow target entry s := by
    unfold flow
    simp only [hsuccs, hstart, hassigns]
  exact {
    nodup := h.nodup
    bound := fun b hb => hnum ▸ h.bound b hb
    blank := fun b hb => by
      rw [hsuccs, hassigns]
      exact h.blank b hb
    untargeted := fun b hb => by
      rw [hsuccs, hstart]
      exact h.untargeted b hb
    beyond := fun b hb => by
      rw [hphis, hsuccs, hassigns]
      exact h.beyond b (hnum ▸ hb)
    entry_lt := hnum ▸ h.entry_lt
    target_lt := fun a b hab => by
      rw [hsuccs] at hab
      exact hnum ▸ h.target_lt a b hab
    phis := fun b i phi hphi => by
      rw [hphis] at hphi
      have hok := h.phis b i phi hphi
      refine ⟨?_, ?_, ?_, hok.ty⟩
      · rw [hsuccs]
        exact hok.complete
      · rw [hsuccs]
        exact hok.fromEdge
      · rw [hend]
        exact hok.value
    consistent := hflow ▸ h.consistent
    reached := fun hpos b hb hbp => hflow ▸ h.reached hpos b (hnum ▸ hb) hbp
    overflow := fun b hb => by
      rw [hnum, hphis]
      exact h.overflow b (hov ▸ hb)
    frags := fun lab frag hf => hnum ▸ h.frags lab frag (hfrag ▸ hf) }

theorem Inv.sub (h : Inv target entry K s G p q) {p' q' : List Block} (hp : p.Perm p')
    (hq : q'.Subperm q) : Inv target entry K s G p' q' := by
  have hmem : ∀ b ∈ p' ++ q', b ∈ p ++ q := by
    intro b hb
    rcases List.mem_append.mp hb with hb | hb
    · exact List.mem_append_left _ (hp.mem_iff.mpr hb)
    · exact List.mem_append_right _ (hq.subset hb)
  exact {
    nodup := by
      obtain ⟨l, hl, hsub⟩ := hq
      have hsub' : (p ++ l).Nodup := h.nodup.sublist (hsub.append_left p)
      exact hsub'.perm (hp.append hl)
    bound := fun b hb => h.bound b (hmem b hb)
    blank := fun b hb => h.blank b (hmem b hb)
    untargeted := fun b hb => h.untargeted b (hp.mem_iff.mpr hb)
    beyond := h.beyond
    entry_lt := h.entry_lt
    target_lt := h.target_lt
    phis := h.phis
    consistent := h.consistent
    reached := fun hpos b hb hbp => h.reached hpos b hb fun hb' => hbp (hp.mem_iff.mp hb')
    overflow := fun b hb => by
      obtain ⟨hlt, hbp, hlen⟩ := h.overflow b hb
      exact ⟨hlt, fun hb' => hbp (hp.mem_iff.mpr hb'), hlen⟩
    frags := fun lab frag hf => by
      obtain ⟨hlt, hfp⟩ := h.frags lab frag hf
      exact ⟨hlt, fun hb' => hfp (hp.mem_iff.mpr hb')⟩ }

theorem Inv.enterReady (h : Inv target entry K s G p (s.cur :: q))
    (hregs : s.regState.regs target = G s.cur) :
    Inv target entry K s G p q ∧ At target s G p q := by
  have hmem : s.cur ∈ p ++ s.cur :: q := List.mem_append_right _ List.mem_cons_self
  obtain ⟨hout, hlog⟩ := h.blank s.cur hmem
  refine ⟨h.sub (List.Perm.refl p) (List.sublist_cons_self _ _).subperm, h.bound _ hmem, ?_,
    hout, ?_⟩
  · intro hcur
    exact (List.nodup_middle.mp h.nodup).notMem hcur
  · unfold endRegs
    rw [hregs, hlog, applyAssigns_nil]

end Steps

end SmlnjLlvm.Codegen.Builder
