import SmlnjLlvm.Codegen.Target

/-!
# Parameter and argument positions

Function types, argument lists and entry code each compute positions from the
number of threaded registers, the threaded base pointer and the unused
registers of a continuation. Values are abstract here: an argument of the
current function, a PHI node or a field of a result struct is whatever the
position lookup returns.
-/

namespace SmlnjLlvm.Codegen

inductive FragKind where
  | stdFun
  | stdCont
  | knownFun
  | internal
  deriving DecidableEq, Repr

/-- The cluster attribute that argument setup reads. -/
structure Attrs where
  needsBasePtr : Bool
  deriving DecidableEq, Repr

/-- The types of CFG variables. -/
inductive CfgTy where
  | labt
  | ptrt
  | tagt
  | numt (sz : Nat)
  | fltt (sz : Nat)
  deriving DecidableEq, Repr

def CfgTy.codegen (target : TargetInfo) : CfgTy → LlvmTy
  | labt => mlValueTy
  | ptrt => mlValueTy
  | tagt => target.intTy
  | numt sz => iType sz
  | fltt sz => fType sz

structure ArgInfo where
  nExtra : Nat
  basePtr : Nat
  nUnused : Nat

section Positions

variable {α : Type} (target : TargetInfo) (attrs : Attrs)

def getArgInfo (kind : FragKind) : ArgInfo :=
  match kind with
  | .stdFun => ⟨target.numMachineRegs, 0, 0⟩
  | .stdCont => ⟨target.numMachineRegs, 0, 2⟩
  | .knownFun | .internal =>
    ⟨target.numMachineRegs, if target.usesBasePtr && attrs.needsBasePtr then 1 else 0, 0⟩

def addExtraParamTys (info : ArgInfo) : List LlvmTy :=
  List.replicate info.nExtra .ptr ++ if info.basePtr ≠ 0 then [target.intTy] else []

def createParamTys (kind : FragKind) : List LlvmTy :=
  let info := getArgInfo target attrs kind
  addExtraParamTys target info ++ List.replicate info.nUnused mlValueTy

def createFnTy (kind : FragKind) (tys : List LlvmTy) : List LlvmTy :=
  createParamTys target attrs kind ++ tys

def gcFnTy : List LlvmTy :=
  createParamTys target attrs .stdFun ++ List.replicate (target.numCalleeSaves + 4) mlValueTy

def addExtraArgs (info : ArgInfo) (regState : CMRegState α) : Option (List α) := do
  let regs ← target.machineRegs.mapM regState.get
  if info.basePtr ≠ 0 then do
    let basePtr ← regState.basePtr
    some (regs ++ [basePtr])
  else some regs

def createArgs (kind : FragKind) (regState : CMRegState α) (undef : α) : Option (List α) := do
  let info := getArgInfo target attrs kind
  let args ← addExtraArgs target info regState
  some (args ++ List.replicate info.nUnused undef)

/-- Number the registers that have hardware registers, as the entry and call-gc loops do. -/
def hwIndices : List CMRegId → Nat → List (CMRegId × Option Nat)
  | [], _ => []
  | r :: rs, hwIx =>
    if target.isMachineReg r then (r, some hwIx) :: hwIndices rs (hwIx + 1)
    else (r, none) :: hwIndices rs hwIx

def setupReg (getArg : Nat → Option α) (regState : CMRegState α) (r : CMRegId × Option Nat) :
    Option (CMRegState α) :=
  match r.2 with
  | some hwIx => (getArg hwIx).map fun arg => regState.set r.1 (some arg)
  | none => some (regState.set r.1 none)

/--
The base address of a cluster: STD_LINK is the first argument after the
registers, and STD_CONT is the third one.
-/
def setupBasePtr (ptrToInt : α → α) (kind : FragKind) (getArg : Nat → Option α)
    (regState : CMRegState α) : Option (CMRegState α) :=
  if target.usesBasePtr && attrs.needsBasePtr then
    let baseIx :=
      if kind = .stdFun then target.numMachineRegs else target.numMachineRegs + 2
    (getArg baseIx).map fun arg => regState.setBasePtr (ptrToInt arg)
  else some regState.clearBasePtr

def setupStdEntry (ptrToInt : α → α) (kind : FragKind) (numParams : Nat)
    (getArg : Nat → Option α) (regState : CMRegState α) : Option (CMRegState α × List α) := do
  let info := getArgInfo target attrs kind
  let regState ← (hwIndices target CMRegId.all 0).foldlM (setupReg getArg) regState
  let regState ← setupBasePtr target attrs ptrToInt kind getArg regState
  let baseIx := info.nExtra + info.nUnused
  let params ← (List.range numParams).mapM fun i => getArg (baseIx + i)
  some (regState, params)

def setupFragBasePtr (info : ArgInfo) (phiNodes : Nat → Option α) (regState : CMRegState α) :
    Option (CMRegState α) :=
  if info.basePtr ≠ 0 then (phiNodes info.nExtra).map regState.setBasePtr else some regState

def setupFragEntry (numParams : Nat) (phiNodes : Nat → Option α) (regState : CMRegState α) :
    Option (CMRegState α × List α) := do
  let info := getArgInfo target attrs .internal
  let regState ← target.machineRegs.zipIdx.foldlM
    (fun st r => (phiNodes r.2).map fun phi => st.set r.1 (some phi)) regState
  let regState ← setupFragBasePtr info phiNodes regState
  let params ← (List.range numParams).mapM fun i => phiNodes (info.nExtra + info.basePtr + i)
  some (regState, params)

def gcResultRegs : List (CMRegId × Nat) :=
  (hwIndices target CMRegId.all 0).filterMap fun r => r.2.map fun hwIx => (r.1, hwIx)

/-- `setMLReg` on a register that is held in a value; a null register is stored to the frame. -/
def setReg (regState : CMRegState α) (r : CMRegId) (v : α) : CMRegState α :=
  match regState.get r with
  | none => regState
  | some _ => regState.set r (some v)

def gcResults (numRoots : Nat) (extractValue : Nat → Option α) (regState : CMRegState α) :
    Option (CMRegState α × List α) := do
  let regState ← (gcResultRegs target).foldlM
    (fun st r => (extractValue r.2).map fun v => setReg st r.1 v) regState
  let roots ← (List.range numRoots).mapM fun i => extractValue (target.numMachineRegs + i)
  some (regState, roots)

def CMRegState.Live (regState : CMRegState α) : Prop :=
  ∀ r, target.isMachineReg r → (regState.get r).isSome

/-! ## The register loops -/

theorem setupReg_foldlM (getArg : Nat → Option α) {rs : List CMRegId} (hrs : rs.Nodup) (k : Nat)
    (st : CMRegState α)
    (harg : ∀ i < (rs.filter target.isMachineReg).length, (getArg (k + i)).isSome) :
    ∃ st', (hwIndices target rs k).foldlM (setupReg getArg) st = some st' ∧
      (∀ i r, (rs.filter target.isMachineReg)[i]? = some r → st'.get r = getArg (k + i)) ∧
      (∀ r ∈ rs, ¬ target.isMachineReg r → st'.get r = none) ∧
      (∀ r, r ∉ rs → st'.get r = st.get r) := by
  induction rs generalizing k st with
  | nil => exact ⟨st, rfl, by simp, by simp, fun _ _ => rfl⟩
  | cons r rs ih =>
    obtain ⟨hr, hrs⟩ := List.nodup_cons.mp hrs
    by_cases hm : target.isMachineReg r
    · rw [List.filter_cons_of_pos hm] at harg ⊢
      obtain ⟨arg, hget⟩ := Option.isSome_iff_exists.mp (harg 0 (Nat.zero_lt_succ _))
      obtain ⟨st', hfold, hregs, hstk, hframe⟩ := ih hrs (k + 1) (st.set r (some arg))
        fun i hi => by
          rw [Nat.add_assoc, Nat.add_comm 1 i]
          exact harg (i + 1) (Nat.succ_lt_succ hi)
      refine ⟨st', ?_, ?_, ?_, ?_⟩
      · rw [hwIndices, if_pos hm, List.foldlM_cons]
        simp only [setupReg, Nat.add_zero] at hget hfold ⊢
        rw [hget]
        exact hfold
      · intro i r' hi
        cases i with
        | zero =>
          obtain rfl : r = r' := by simpa using hi
          rw [hframe r hr, CMRegState.get_set_same, hget]
        | succ i =>
          rw [hregs i r' hi, Nat.add_assoc, Nat.add_comm 1 i]
      · intro r' hr' hm'
        rcases List.mem_cons.mp hr' with rfl | hr'
        · exact absurd hm hm'
        · exact hstk r' hr' hm'
      · intro r' hr'
        rw [List.mem_cons, not_or] at hr'
        rw [hframe r' hr'.2, CMRegState.get_set_of_ne _ _ hr'.1]
    · rw [List.filter_cons_of_neg hm] at harg ⊢
      obtain ⟨st', hfold, hregs, hstk, hframe⟩ := ih hrs k (st.set r none) harg
      refine ⟨st', ?_, hregs, ?_, ?_⟩
      · rw [hwIndices, if_neg hm, List.foldlM_cons]
        exact hfold
      · intro r' hr' hm'
        rcases List.mem_cons.mp hr' with rfl | hr'
        · rw [hframe r' hr, CMRegState.get_set_same]
        · exact hstk r' hr' hm'
      · intro r' hr'
        rw [List.mem_cons, not_or] at hr'
        rw [hframe r' hr'.2, CMRegState.get_set_of_ne _ _ hr'.1]

theorem gcResultRegs_eq : gcResultRegs target = target.machineRegs.zipIdx := by
  have hgen : ∀ rs k, (hwIndices target rs k).filterMap
      (fun r => r.2.map fun hwIx => (r.1, hwIx)) = (rs.filter target.isMachineReg).zipIdx k := by
    intro rs
    induction rs with
    | nil => exact fun _ => rfl
    | cons r rs ih =>
      intro k
      by_cases hm : target.isMachineReg r
      · rw [hwIndices, if_pos hm, List.filter_cons_of_pos hm, List.zipIdx_cons, ← ih]
        rfl
      · rw [hwIndices, if_neg hm, List.filter_cons_of_neg hm, ← ih]
        rfl
  exact hgen _ 0

theorem set_foldlM (getArg : Nat → Option α) {rs : List CMRegId} (hrs : rs.Nodup) (k : Nat)
    (st : CMRegState α) (harg : ∀ i < rs.length, (getArg (k + i)).isSome) :
    ∃ st', (rs.zipIdx k).foldlM
        (fun st r => (getArg r.2).map fun v => st.set r.1 (some v)) st = some st' ∧
      (∀ i r, rs[i]? = some r → st'.get r = getArg (k + i)) ∧
      (∀ r, r ∉ rs → st'.get r = st.get r) := by
  induction rs generalizing k st with
  | nil => exact ⟨st, rfl, by simp, fun _ _ => rfl⟩
  | cons r rs ih =>
    obtain ⟨hr, hrs⟩ := List.nodup_cons.mp hrs
    obtain ⟨arg, hget⟩ := Option.isSome_iff_exists.mp (harg 0 (Nat.zero_lt_succ _))
    obtain ⟨st', hfold, hregs, hframe⟩ := ih hrs (k + 1) (st.set r (some arg)) fun i hi => by
      rw [Nat.add_assoc, Nat.add_comm 1 i]
      exact harg (i + 1) (Nat.succ_lt_succ hi)
    refine ⟨st', ?_, ?_, ?_⟩
    · rw [List.zipIdx_cons, List.foldlM_cons]
      simp only [Nat.add_zero] at hget
      simp only [hget]
      exact hfold
    · intro i r' hi
      cases i with
      | zero =>
        obtain rfl : r = r' := by simpa using hi
        rw [hframe r hr, CMRegState.get_set_same, hget]
      | succ i =>
        rw [hregs i r' hi, Nat.add_assoc, Nat.add_comm 1 i]
    · intro r' hr'
      rw [List.mem_cons, not_or] at hr'
      rw [hframe r' hr'.2, CMRegState.get_set_of_ne _ _ hr'.1]

theorem setReg_eq_set {st : CMRegState α} {r : CMRegId} (h : (st.get r).isSome) (v : α) :
    setReg st r v = st.set r (some v) := by
  obtain ⟨w, hw⟩ := Option.isSome_iff_exists.mp h
  rw [setReg, hw]

theorem setReg_foldlM (getArg : Nat → Option α) (rs : List (CMRegId × Nat)) (st : CMRegState α)
    (hlive : ∀ r ∈ rs, (st.get r.1).isSome) :
    rs.foldlM (fun st r => (getArg r.2).map fun v => setReg st r.1 v) st =
      rs.foldlM (fun st r => (getArg r.2).map fun v => st.set r.1 (some v)) st := by
  induction rs generalizing st with
  | nil => rfl
  | cons r rs ih =>
    rw [List.foldlM_cons, List.foldlM_cons]
    cases hget : getArg r.2 with
    | none => rfl
    | some v =>
      have hset := setReg_eq_set (hlive r List.mem_cons_self) v
      simp only [Option.map_some, hset]
      refine ih _ fun r' hr' => ?_
      by_cases heq : r'.1 = r.1
      · rw [heq, CMRegState.get_set_same]
        rfl
      · rw [CMRegState.get_set_of_ne _ _ heq]
        exact hlive r' (List.mem_cons_of_mem _ hr')

theorem mapM_getArg (getArg : Nat → Option α) (base n : Nat)
    (h : ∀ i < n, (getArg (base + i)).isSome) :
    ∃ params, (List.range n).mapM (fun i => getArg (base + i)) = some params ∧
      params.map some = (List.range n).map fun i => getArg (base + i) := by
  generalize hl : List.range n = l
  have hmem : ∀ i ∈ l, i < n := by
    rintro i hi
    rwa [← hl, List.mem_range] at hi
  clear hl
  induction l with
  | nil => exact ⟨[], rfl, rfl⟩
  | cons i l ih =>
    obtain ⟨v, hv⟩ := Option.isSome_iff_exists.mp (h i (hmem i List.mem_cons_self))
    obtain ⟨params, hp, hmap⟩ := ih fun j hj => hmem j (List.mem_cons_of_mem _ hj)
    exact ⟨v :: params, by simp [List.mapM_cons, hv, hp], by simp [hv, hmap]⟩

end Positions

end SmlnjLlvm.Codegen
