import Mathlib.Data.List.Nodup
import SmlnjLlvm.Codegen.Arguments

/-!
# Agreement of callers and callees

A caller passes one slot for each position, and a callee reads positions. Both
sides are run here on symbols: the caller on slots that say what is passed, the
callee on the positions themselves.
-/

namespace SmlnjLlvm.Codegen

/-- What a caller passes in one position. -/
inductive Slot where
  | reg (r : CMRegId)
  | basePtr
  | undef
  | user (j : Nat)
  deriving DecidableEq, Repr

def Slot.ty (target : TargetInfo) (tys : List LlvmTy) : Slot → LlvmTy
  | reg _ => .ptr
  | basePtr => target.intTy
  | undef => mlValueTy
  | user j => tys.getD j mlValueTy

variable {kind : FragKind} {n : Nat} {params : List Nat}

section Agreement

variable (target : TargetInfo) (attrs : Attrs)

/-- The register state of a caller, with every register in its own slot. -/
def callerState : CMRegState Slot where
  basePtr := some .basePtr
  val r := if target.isMachineReg r then some (.reg r) else none

/-- The prefix from `createArgs`, then the user arguments. -/
def callerArgs (kind : FragKind) (n : Nat) : Option (List Slot) := do
  let args ← createArgs target attrs kind (callerState target) .undef
  some (args ++ (List.range n).map .user)

def threadsBasePtr (kind : FragKind) : Bool := (getArgInfo target attrs kind).basePtr ≠ 0

/-- The parameter types fit the slots, and every position read holds what it is read as. -/
structure Agrees (threaded : Bool) (tys paramTys : List LlvmTy) (args : List Slot)
    (regState : CMRegState Nat) (params : List Nat) : Prop where
  types : paramTys = args.map (Slot.ty target tys)
  regs : ∀ r, target.isMachineReg r → ∃ p, regState.get r = some p ∧ args[p]? = some (.reg r)
  basePtr : threaded → ∃ p, regState.basePtr = some p ∧ args[p]? = some .basePtr
  users : params.map (fun p => args[p]?) = (List.range tys.length).map fun j => some (.user j)
  distinct : (target.machineRegs.map regState.get ++
    (if threaded then [regState.basePtr] else []) ++ params.map some).Nodup

/-- The positions of a function whose parameters have the given types. -/
def position (paramTys : List LlvmTy) (i : Nat) : Option Nat :=
  if i < paramTys.length then some i else none

/-- A call of a cluster entry: APPLY with the kind of its callee, or THROW with `stdCont`. -/
def CallAgrees (kind : FragKind) (tys : List LlvmTy) : Prop :=
  let fnTy := createFnTy target attrs kind tys
  ∃ args regState params, callerArgs target attrs kind tys.length = some args ∧
    setupStdEntry target attrs id kind tys.length (position fnTy) ⟨none, fun _ => none⟩ =
      some (regState, params) ∧
    Agrees target (threadsBasePtr target attrs kind) tys fnTy args regState params

/-- GOTO and the PHI nodes of its target, which `frag::init` creates from the same types. -/
def GotoAgrees (tys : List LlvmTy) (before : CMRegState Nat) : Prop :=
  let paramTys := createParamTys target attrs .internal ++ tys
  ∃ args regState params, callerArgs target attrs .internal tys.length = some args ∧
    setupFragEntry target attrs tys.length (position paramTys) before = some (regState, params) ∧
    Agrees target (threadsBasePtr target attrs .internal) tys paramTys args regState params

/-- CALLGC: the roots and the fields of the result struct that they come back in. -/
def CallGCAgrees (before : CMRegState Nat) : Prop :=
  let tys := List.replicate (target.numCalleeSaves + 4) mlValueTy
  ∃ args regState params, callerArgs target attrs .stdFun tys.length = some args ∧
    gcResults target tys.length (position (gcFnTy target attrs)) before = some (regState, params) ∧
    Agrees target false tys (gcFnTy target attrs) args regState params

theorem callerState_mapM {rs : List CMRegId} (h : ∀ r ∈ rs, target.isMachineReg r) :
    rs.mapM (callerState target).get = some (rs.map .reg) := by
  induction rs with
  | nil => rfl
  | cons r rs ih =>
    have hr : (callerState target).get r = some (.reg r) := if_pos (h r List.mem_cons_self)
    rw [List.mapM_cons, hr, ih fun r' hr' => h r' (List.mem_cons_of_mem _ hr')]
    rfl

/-- The slots of the three prefixes and the user arguments. -/
def slots (kind : FragKind) (n : Nat) : List Slot :=
  target.machineRegs.map .reg ++ (if threadsBasePtr target attrs kind then [.basePtr] else []) ++
    List.replicate (getArgInfo target attrs kind).nUnused .undef ++ (List.range n).map .user

theorem getArgInfo_nExtra (kind : FragKind) :
    (getArgInfo target attrs kind).nExtra = target.numMachineRegs := by
  cases kind <;> rfl

theorem callerArgs_eq (kind : FragKind) (n : Nat) :
    callerArgs target attrs kind n = some (slots target attrs kind n) := by
  have hregs := callerState_mapM target fun r hr => target.mem_machineRegs.mp hr
  simp only [callerArgs, createArgs, addExtraArgs, hregs, slots, threadsBasePtr,
    Option.bind_eq_bind, Option.bind_some]
  by_cases h : (getArgInfo target attrs kind).basePtr ≠ 0
  · simp [h, callerState]
  · simp [h]

theorem slots_types (kind : FragKind) (tys : List LlvmTy) :
    createFnTy target attrs kind tys =
      (slots target attrs kind tys.length).map (Slot.ty target tys) := by
  have husers : tys = (List.range tys.length).map fun j => Slot.ty target tys (.user j) := by
    refine List.ext_getElem (by simp) fun i h₁ h₂ => ?_
    simp [Slot.ty, h₁]
  have hregs : List.replicate target.numMachineRegs LlvmTy.ptr =
      target.machineRegs.map fun r => Slot.ty target tys (.reg r) := by
    simp [Slot.ty, TargetInfo.numMachineRegs, List.map_const']
  simp only [createFnTy, createParamTys, addExtraParamTys, slots, threadsBasePtr,
    getArgInfo_nExtra, List.map_append, List.map_map, List.map_replicate, Function.comp_def]
  rw [← husers, ← hregs]
  by_cases h : (getArgInfo target attrs kind).basePtr ≠ 0
  · simp [h, Slot.ty]
  · simp [h, Slot.ty]

theorem slots_length (kind : FragKind) (n : Nat) :
    (slots target attrs kind n).length = target.numMachineRegs +
      (if threadsBasePtr target attrs kind then 1 else 0) +
      (getArgInfo target attrs kind).nUnused + n := by
  rw [slots]
  split <;> simp [TargetInfo.numMachineRegs] <;> omega

theorem slots_reg (kind : FragKind) (n : Nat) {i : Nat} {r : CMRegId}
    (h : target.machineRegs[i]? = some r) : (slots target attrs kind n)[i]? = some (.reg r) := by
  have hi : i < (target.machineRegs.map Slot.reg).length := by
    rw [List.length_map]
    exact (List.getElem?_eq_some_iff.mp h).1
  rw [slots, List.append_assoc, List.append_assoc, List.getElem?_append_left hi,
    List.getElem?_map, h]
  rfl

theorem slots_basePtr (n : Nat) (h : threadsBasePtr target attrs kind) :
    (slots target attrs kind n)[target.numMachineRegs]? = some .basePtr := by
  rw [slots, if_pos h, List.append_assoc, List.append_assoc,
    List.getElem?_append_right (by simp [TargetInfo.numMachineRegs])]
  simp [TargetInfo.numMachineRegs]

theorem slots_user (kind : FragKind) {j : Nat} (h : j < n) :
    (slots target attrs kind n)[target.numMachineRegs +
      (if threadsBasePtr target attrs kind then 1 else 0) +
      (getArgInfo target attrs kind).nUnused + j]? = some (.user j) := by
  have hlen : (target.machineRegs.map Slot.reg ++
      (if threadsBasePtr target attrs kind then [Slot.basePtr] else []) ++
      List.replicate (getArgInfo target attrs kind).nUnused Slot.undef).length =
      target.numMachineRegs + (if threadsBasePtr target attrs kind then 1 else 0) +
        (getArgInfo target attrs kind).nUnused := by
    split <;> simp [TargetInfo.numMachineRegs]
    omega
  rw [slots, List.getElem?_append_right (by rw [hlen]; exact Nat.le_add_right _ _), hlen,
    Nat.add_sub_cancel_left]
  simp [h]

/-! ## Reading the positions -/

variable {target}

theorem positions_nodup {threaded : Bool} {args : List Slot} {regState : CMRegState Nat}
    (hregs : ∀ r, target.isMachineReg r → ∃ p, regState.get r = some p ∧ args[p]? = some (.reg r))
    (hbase : threaded → ∃ p, regState.basePtr = some p ∧ args[p]? = some .basePtr)
    (husers : params.map (fun p => args[p]?) = (List.range n).map fun j => some (.user j)) :
    (target.machineRegs.map regState.get ++ (if threaded then [regState.basePtr] else []) ++
      params.map some).Nodup := by
  refine List.Nodup.of_map (fun p : Option Nat => p.bind fun p => args[p]?) ?_
  have h₁ : (target.machineRegs.map regState.get).map (fun p => p.bind fun p => args[p]?) =
      target.machineRegs.map fun r => some (.reg r) := by
    rw [List.map_map]
    refine List.map_congr_left fun r hr => ?_
    obtain ⟨p, hp, hslot⟩ := hregs r (target.mem_machineRegs.mp hr)
    simp [hp, hslot]
  have h₂ : (if threaded then [regState.basePtr] else []).map
      (fun p => p.bind fun p => args[p]?) = if threaded then [some Slot.basePtr] else [] := by
    by_cases ht : threaded
    · obtain ⟨p, hp, hslot⟩ := hbase ht
      simp [ht, hp, hslot]
    · simp [ht]
  have h₃ : (params.map some).map (fun p => p.bind fun p => args[p]?) =
      (List.range n).map fun j => some (.user j) := by
    rw [List.map_map, ← husers]
    rfl
  rw [List.map_append, List.map_append, h₁, h₂, h₃]
  have hmachine : (target.machineRegs.map fun r => some (Slot.reg r)).Nodup :=
    target.machineRegs_nodup.map fun r r' h => by simpa using h
  have hrange : ((List.range n).map fun j => some (Slot.user j)).Nodup :=
    List.nodup_range.map fun j j' h => by simpa using h
  refine List.Nodup.append (List.Nodup.append hmachine (by split <;> simp) ?_) hrange ?_
  · intro s hs hb
    obtain ⟨r, _, rfl⟩ := List.mem_map.mp hs
    split at hb <;> simp at hb
  · intro s hs hu
    obtain ⟨j, _, rfl⟩ := List.mem_map.mp hu
    rcases List.mem_append.mp hs with h | h
    · simp at h
    · split at h <;> simp at h

theorem position_isSome {paramTys : List LlvmTy} {i : Nat} (h : i < paramTys.length) :
    position paramTys i = some i := if_pos h

theorem regs_agree {attrs : Attrs} (paramTys : List LlvmTy) {regState : CMRegState Nat}
    (hlen : target.numMachineRegs ≤ paramTys.length)
    (h : ∀ i r, target.machineRegs[i]? = some r → regState.get r = position paramTys (0 + i)) :
    ∀ r, target.isMachineReg r →
      ∃ p, regState.get r = some p ∧ (slots target attrs kind n)[p]? = some (.reg r) := by
  intro r hr
  obtain ⟨i, hi⟩ := List.mem_iff_getElem?.mp (target.mem_machineRegs.mpr hr)
  have hlt : i < target.numMachineRegs := (List.getElem?_eq_some_iff.mp hi).1
  refine ⟨i, ?_, slots_reg target attrs kind n hi⟩
  rw [h i r hi, Nat.zero_add, position_isSome (by omega)]

theorem users_agree (attrs : Attrs) (kind : FragKind) {base : Nat} {paramTys : List LlvmTy}
    (hbase : base = target.numMachineRegs + (if threadsBasePtr target attrs kind then 1 else 0) +
      (getArgInfo target attrs kind).nUnused) (hlen : base + n = paramTys.length)
    (h : params.map some = (List.range n).map fun i => position paramTys (base + i)) :
    params.map (fun p => (slots target attrs kind n)[p]?) =
      (List.range n).map fun j => some (.user j) := by
  have hparams : params = (List.range n).map fun j => base + j := by
    have hsome : params.map some = ((List.range n).map fun j => base + j).map some := by
      rw [h, List.map_map]
      refine List.map_congr_left fun j hj => ?_
      rw [List.mem_range] at hj
      rw [position_isSome (by omega)]
      rfl
    exact List.map_injective_iff.mpr (fun _ _ => Option.some.inj) hsome
  rw [hparams, List.map_map]
  refine List.map_congr_left fun j hj => ?_
  rw [List.mem_range] at hj
  simp only [Function.comp_apply, hbase]
  exact slots_user target attrs kind hj

variable (target)

theorem threads_nUnused {attrs : Attrs} (h : threadsBasePtr target attrs kind) :
    (getArgInfo target attrs kind).nUnused = 0 := by
  cases kind <;> simp_all [threadsBasePtr, getArgInfo]

theorem threadsBasePtr_iff (kind : FragKind) : threadsBasePtr target attrs kind ↔
    (kind = .knownFun ∨ kind = .internal) ∧ target.usesBasePtr ∧ attrs.needsBasePtr := by
  cases kind <;> simp [threadsBasePtr, getArgInfo]

theorem createParamTys_length (kind : FragKind) :
    (createParamTys target attrs kind).length = target.numMachineRegs +
      (if threadsBasePtr target attrs kind then 1 else 0) +
      (getArgInfo target attrs kind).nUnused := by
  simp only [createParamTys, addExtraParamTys, threadsBasePtr, getArgInfo_nExtra]
  by_cases h : (getArgInfo target attrs kind).basePtr ≠ 0
  · simp only [h, ne_eq, not_false_eq_true, if_true, decide_true, List.length_append,
      List.length_replicate, List.length_singleton]
  · simp [h]

theorem entry_regs (paramTys : List LlvmTy) (hlen : target.numMachineRegs ≤ paramTys.length)
    (st : CMRegState Nat) :
    ∃ st', (hwIndices target CMRegId.all 0).foldlM (setupReg (position paramTys)) st = some st' ∧
      ∀ i r, target.machineRegs[i]? = some r → st'.get r = position paramTys (0 + i) := by
  obtain ⟨st', hfold, hregs, _⟩ := setupReg_foldlM target (position paramTys) CMRegId.all_nodup 0 st
    fun i hi => by
      have hi' : i < target.numMachineRegs := hi
      rw [Nat.zero_add, position_isSome (by omega)]
      rfl
  exact ⟨st', hfold, hregs⟩

theorem callAgrees_of_not_threads {attrs : Attrs} {tys : List LlvmTy}
    (ht : ¬ threadsBasePtr target attrs kind)
    (hbase : target.usesBasePtr && attrs.needsBasePtr → tys ≠ []) :
    CallAgrees target attrs kind tys := by
  have hlen := slots_length target attrs kind tys.length
  rw [if_neg ht] at hlen
  have htypes := slots_types target attrs kind tys
  generalize hfn : createFnTy target attrs kind tys = fnTy at htypes
  have hfnlen : fnTy.length =
      target.numMachineRegs + (getArgInfo target attrs kind).nUnused + tys.length := by
    rw [htypes, List.length_map, hlen, Nat.add_zero]
  obtain ⟨st, hfold, hregs⟩ := entry_regs target fnTy (by omega) ⟨none, fun _ => none⟩
  obtain ⟨params, hparams, hmap⟩ := mapM_getArg (position fnTy)
    (target.numMachineRegs + (getArgInfo target attrs kind).nUnused) tys.length
    fun i hi => by
      rw [position_isSome (by omega)]
      rfl
  -- the base pointer of a standard entry is read from its first formal parameter
  have hstart : ∃ st', setupBasePtr target attrs id kind (position fnTy) st = some st' ∧
      ∀ r, st'.get r = st.get r := by
    rw [setupBasePtr]
    by_cases hu : target.usesBasePtr && attrs.needsBasePtr
    · have hpos := List.length_pos_of_ne_nil (hbase hu)
      have hkind : (if kind = .stdFun then target.numMachineRegs else target.numMachineRegs + 2) =
          target.numMachineRegs + (getArgInfo target attrs kind).nUnused := by
        cases kind with
        | stdFun => rfl
        | stdCont => rfl
        | knownFun => simp_all [threadsBasePtr, getArgInfo]
        | internal => simp_all [threadsBasePtr, getArgInfo]
      rw [if_pos hu, hkind]
      dsimp only
      rw [position_isSome (by omega)]
      exact ⟨_, rfl, fun _ => rfl⟩
    · rw [if_neg hu]
      exact ⟨_, rfl, fun _ => rfl⟩
  obtain ⟨st', hst', hget⟩ := hstart
  have hsetup : setupStdEntry target attrs id kind tys.length (position fnTy)
      ⟨none, fun _ => none⟩ = some (st', params) := by
    simp only [setupStdEntry, hfold, getArgInfo_nExtra, hst', hparams, Option.bind_eq_bind,
      Option.bind_some]
  have hagree : ∀ r, target.isMachineReg r →
      ∃ p, st'.get r = some p ∧ (slots target attrs kind tys.length)[p]? = some (.reg r) := by
    refine regs_agree fnTy (by omega) fun i r hi => ?_
    rw [hget, hregs i r hi]
  have husers := users_agree attrs kind (by rw [if_neg ht, Nat.add_zero]) hfnlen.symm hmap
  simp only [CallAgrees, hfn]
  exact ⟨_, st', params, callerArgs_eq target attrs kind tys.length, hsetup, htypes, hagree,
    fun h => absurd h ht, husers, positions_nodup hagree (fun h => absurd h ht) husers⟩

theorem setupStdEntry_basePtr {attrs : Attrs} {getArg : Nat → Option Nat}
    {before st : CMRegState Nat} (hu : target.usesBasePtr && attrs.needsBasePtr)
    (h : setupStdEntry target attrs id kind n getArg before = some (st, params)) :
    ∃ p, getArg (if kind = .stdFun then target.numMachineRegs else target.numMachineRegs + 2) =
      some p ∧ st.basePtr = some p := by
  simp only [setupStdEntry, Option.bind_eq_bind, Option.bind_eq_some_iff] at h
  obtain ⟨st₁, _, st₂, hbase, params', _, heq⟩ := h
  rw [Option.some.injEq, Prod.mk.injEq] at heq
  rw [setupBasePtr, if_pos hu, Option.map_eq_some_iff] at hbase
  obtain ⟨p, hp, hst⟩ := hbase
  refine ⟨p, hp, ?_⟩
  rw [← heq.1, ← hst]
  rfl

theorem not_callAgrees_of_threads {attrs : Attrs} {tys : List LlvmTy}
    (ht : threadsBasePtr target attrs kind) : ¬ CallAgrees target attrs kind tys := by
  rintro ⟨args, st, params, hargs, hsetup, hagrees⟩
  obtain ⟨hkind, huses, hneeds⟩ := (threadsBasePtr_iff target attrs kind).mp ht
  obtain ⟨p, hp, hst⟩ := setupStdEntry_basePtr target (by simp [huses, hneeds]) hsetup
  obtain ⟨q, hq, hslot⟩ := hagrees.basePtr ht
  rw [callerArgs_eq, Option.some.injEq] at hargs
  rw [hst, Option.some.injEq] at hq
  rw [if_neg (by rcases hkind with rfl | rfl <;> decide), position] at hp
  split at hp
  · rename_i hlt
    rw [Option.some.injEq] at hp
    -- the position two after the registers holds a user argument
    rw [slots_types, List.length_map, slots_length, if_pos ht, threads_nUnused target ht] at hlt
    have huser := slots_user target attrs kind (n := tys.length) (j := 1) (by omega)
    rw [if_pos ht, threads_nUnused target ht] at huser
    rw [← hargs, ← hq, ← hp, huser] at hslot
    cases hslot
  · cases hp

/--
A call of a cluster entry agrees exactly when the base pointer is not in use,
or the entry has one of the standard kinds and a first parameter to take it from.
-/
theorem callAgrees_iff (kind : FragKind) (tys : List LlvmTy) :
    CallAgrees target attrs kind tys ↔
      (target.usesBasePtr ∧ attrs.needsBasePtr → (kind = .stdFun ∨ kind = .stdCont) ∧ tys ≠ []) := by
  constructor
  · rintro hc ⟨huses, hneeds⟩
    have hkind : kind = .stdFun ∨ kind = .stdCont := by
      have hnot := fun ht => not_callAgrees_of_threads target ht hc
      rw [threadsBasePtr_iff] at hnot
      cases kind <;> simp_all
    refine ⟨hkind, ?_⟩
    rintro rfl
    -- the base pointer would be read past the last argument
    obtain ⟨args, st, params, _, hsetup, _⟩ := hc
    obtain ⟨p, hp, _⟩ := setupStdEntry_basePtr target (by simp [huses, hneeds]) hsetup
    have hlen : (createFnTy target attrs kind []).length =
        if kind = .stdFun then target.numMachineRegs else target.numMachineRegs + 2 := by
      rw [createFnTy, List.append_nil, createParamTys_length]
      rcases hkind with rfl | rfl <;> rfl
    rw [position, hlen, if_neg (Nat.lt_irrefl _)] at hp
    cases hp
  · intro h
    refine callAgrees_of_not_threads target ?_ fun hu => ?_
    · rw [threadsBasePtr_iff]
      rintro ⟨hkind, hu⟩
      rcases (h hu).1 with rfl | rfl <;> simp at hkind
    · rw [Bool.and_eq_true] at hu
      exact (h hu).2

theorem gotoAgrees (tys : List LlvmTy) (before : CMRegState Nat) :
    GotoAgrees target attrs tys before := by
  have hlen := slots_length target attrs .internal tys.length
  have htypes := slots_types target attrs .internal tys
  have hunused : (getArgInfo target attrs .internal).nUnused = 0 := rfl
  rw [createFnTy] at htypes
  generalize hfn : createParamTys target attrs .internal ++ tys = paramTys at htypes
  have hfnlen : paramTys.length = target.numMachineRegs +
      (if threadsBasePtr target attrs .internal then 1 else 0) + tys.length := by
    rw [htypes, List.length_map, hlen, hunused, Nat.add_zero]
  obtain ⟨st, hfold, hregs, _⟩ := set_foldlM (position paramTys) target.machineRegs_nodup 0 before
    fun i hi => by
      have hi' : i < target.numMachineRegs := hi
      rw [Nat.zero_add, position_isSome (by omega)]
      rfl
  have hbp : (getArgInfo target attrs .internal).basePtr =
      if threadsBasePtr target attrs .internal then 1 else 0 := by
    by_cases hu : target.usesBasePtr && attrs.needsBasePtr
    · simp [threadsBasePtr, getArgInfo, hu]
    · simp [threadsBasePtr, getArgInfo, hu]
  obtain ⟨params, hparams, hmap⟩ := mapM_getArg (position paramTys)
    (target.numMachineRegs + (getArgInfo target attrs .internal).basePtr) tys.length
    fun i hi => by
      rw [position_isSome (by omega)]
      rfl
  -- the threaded base pointer follows the registers on both sides
  have hstart : ∃ st', setupFragBasePtr (getArgInfo target attrs .internal) (position paramTys) st =
      some st' ∧ (∀ r, st'.get r = st.get r) ∧
      (threadsBasePtr target attrs .internal → st'.basePtr = some target.numMachineRegs) := by
    rw [setupFragBasePtr, hbp, getArgInfo_nExtra]
    by_cases ht : threadsBasePtr target attrs .internal
    · rw [if_pos ht] at hfnlen ⊢
      rw [if_pos (by decide), position_isSome (by omega)]
      exact ⟨_, rfl, fun _ => rfl, fun _ => rfl⟩
    · rw [if_neg ht]
      exact ⟨st, rfl, fun _ => rfl, fun h => absurd h ht⟩
  obtain ⟨st', hst', hget, hbase⟩ := hstart
  have hsetup : setupFragEntry target attrs tys.length (position paramTys) before =
      some (st', params) := by
    simp only [setupFragEntry, hfold, getArgInfo_nExtra, hst', hparams, Option.bind_eq_bind,
      Option.bind_some]
  have hagree : ∀ r, target.isMachineReg r → ∃ p, st'.get r = some p ∧
      (slots target attrs .internal tys.length)[p]? = some (.reg r) := by
    refine regs_agree paramTys (by omega) fun i r hi => ?_
    rw [hget, hregs i r hi]
  have hbaseAgree : threadsBasePtr target attrs .internal → ∃ p, st'.basePtr = some p ∧
      (slots target attrs .internal tys.length)[p]? = some .basePtr := fun ht =>
    ⟨_, hbase ht, slots_basePtr target attrs tys.length ht⟩
  have husers := users_agree attrs .internal (by rw [hunused, hbp, Nat.add_zero])
    (by rw [hfnlen, hbp]) hmap
  simp only [GotoAgrees, hfn]
  exact ⟨_, st', params, callerArgs_eq target attrs .internal tys.length, hsetup, htypes, hagree,
    hbaseAgree, husers, positions_nodup hagree hbaseAgree husers⟩

theorem callGCAgrees (before : CMRegState Nat) (hlive : before.Live target) :
    CallGCAgrees target attrs before := by
  have ht : ¬ threadsBasePtr target attrs .stdFun := by simp [threadsBasePtr_iff]
  generalize hty : List.replicate (target.numCalleeSaves + 4) mlValueTy = tys
  have hlen := slots_length target attrs .stdFun tys.length
  have htypes := slots_types target attrs .stdFun tys
  have hfn : gcFnTy target attrs = createFnTy target attrs .stdFun tys := by
    rw [gcFnTy, hty]
    rfl
  rw [← hfn] at htypes
  generalize hgcFn : gcFnTy target attrs = fnTy at htypes hfn
  have hfnlen : fnTy.length = target.numMachineRegs + tys.length := by
    rw [htypes, List.length_map, hlen]
    rfl
  obtain ⟨st, hfold, hregs, _⟩ := set_foldlM (position fnTy) target.machineRegs_nodup 0 before
    fun i hi => by
      have hi' : i < target.numMachineRegs := hi
      rw [Nat.zero_add, position_isSome (by omega)]
      rfl
  obtain ⟨params, hparams, hmap⟩ := mapM_getArg (position fnTy)
    target.numMachineRegs tys.length fun i hi => by
      rw [position_isSome (by omega)]
      rfl
  have hgc : gcResults target tys.length (position fnTy) before = some (st, params) := by
    have hregsLive : ∀ r ∈ target.machineRegs.zipIdx, (before.get r.1).isSome := fun r hr =>
      hlive r.1 (target.mem_machineRegs.mp (List.fst_mem_of_mem_zipIdx hr))
    simp only [gcResults, gcResultRegs_eq, setReg_foldlM _ _ _ hregsLive, hfold, hparams,
      Option.bind_eq_bind, Option.bind_some]
  have hagree : ∀ r, target.isMachineReg r → ∃ p, st.get r = some p ∧
      (slots target attrs .stdFun tys.length)[p]? = some (.reg r) :=
    regs_agree fnTy (by omega) hregs
  have husers := users_agree attrs .stdFun (by rw [if_neg ht]; rfl)
    hfnlen.symm hmap
  simp only [CallGCAgrees, hty, hgcFn]
  exact ⟨_, st, params, callerArgs_eq target attrs .stdFun tys.length, hgc, htypes, hagree,
    fun h => absurd h (by decide), husers,
    positions_nodup hagree (fun h => absurd h (by decide)) husers⟩

/--
The positions of every transfer inside a cluster. Jumps to fragments and calls
of the collector always agree; calls of an entry agree under the condition.
-/
theorem positions_agree_iff (kind : FragKind) (tys : List LlvmTy) :
    (CallAgrees target attrs kind tys ↔
      (target.usesBasePtr ∧ attrs.needsBasePtr →
        (kind = .stdFun ∨ kind = .stdCont) ∧ tys ≠ [])) ∧
      (∀ before, GotoAgrees target attrs tys before) ∧
      ∀ before, before.Live target → CallGCAgrees target attrs before :=
  ⟨callAgrees_iff target attrs kind tys, gotoAgrees target attrs tys, callGCAgrees target attrs⟩

end Agreement

theorem positions_agree_arm64 : CallAgrees arm64Info ⟨true⟩ .knownFun [.ptr, .f64] ∧
    CallGCAgrees arm64Info ⟨true⟩ ⟨none, fun _ => some 0⟩ := by
  obtain ⟨hcall, _, hgc⟩ := positions_agree_iff arm64Info ⟨true⟩ .knownFun [.ptr, .f64]
  exact ⟨hcall.mpr fun h => absurd h.1 (by decide), hgc _ fun _ _ => rfl⟩

/--
On a target without PC-relative addressing the first parameter of a known
function is bound to the argument that carries the base pointer.
-/
theorem knownFun_positions_disagree :
    let target := { arm64Info with hasPCRel := false }
    callerArgs target ⟨true⟩ .knownFun 2 = some (CMRegId.all.map .reg ++
        [.basePtr, .user 0, .user 1]) ∧
      (setupStdEntry target ⟨true⟩ id .knownFun 2
        (position (createFnTy target ⟨true⟩ .knownFun [.ptr, .ptr]))
        ⟨none, fun _ => none⟩).map (fun e => (e.1.basePtr, e.2)) = some (some 7, [5, 6]) ∧
      ¬ CallAgrees target ⟨true⟩ .knownFun [.ptr, .ptr] :=
  ⟨by decide, by decide, not_callAgrees_of_threads _ (by decide)⟩

end SmlnjLlvm.Codegen
