import SmlnjLlvm.Codegen.Arguments
import SmlnjLlvm.Library.FirstFit

/-!
# The JWA calling conventions

A convention is a list of actions that are tried in order on the type of one
argument. Only the actions for scalar types are embedded: no parameter of the
code generator has a vector type. An argument that no action assigns falls
through the convention.
-/

namespace SmlnjLlvm.Codegen

open FirstFit

/-- Machine value types of scalar arguments; `iPTR` is the type of a pointer. -/
inductive Mvt where
  | i1
  | i8
  | i16
  | i32
  | i64
  | f32
  | f64
  | iPTR
  deriving DecidableEq, Repr

/-- Physical registers of both targets; `s` and `d` are two views of a vector register. -/
inductive PhysReg where
  | rdi
  | r14
  | r15
  | r8
  | r9
  | rsi
  | rbx
  | rcx
  | rdx
  | rbp
  | r10
  | r11
  | r12
  | r13
  | xmm (n : Nat)
  | x (n : Nat)
  | s (n : Nat)
  | d (n : Nat)
  deriving DecidableEq, Repr

def PhysReg.overlaps : PhysReg → PhysReg → Bool
  | s n, d m => n == m
  | d n, s m => n == m
  | r, r' => r == r'

inductive CCAction where
  /-- `CCPromoteToType`, or `CCBitConvertToType`. -/
  | toType (tys : List Mvt) (destTy : Mvt)
  | assignToReg (tys : List Mvt) (regs : List PhysReg)

def x86_64GPRs : List PhysReg := [
  .rdi, .r14, .r15,
  .r8, .r9, .rsi,
  .rbx, .rcx, .rdx,
  .rbp, .r10, .r11,
  .r12, .r13]

def x86_64FPRs : List PhysReg := [
  .xmm 0, .xmm 1, .xmm 2, .xmm 3, .xmm 4, .xmm 5, .xmm 6, .xmm 7,
  .xmm 8, .xmm 9, .xmm 10, .xmm 11, .xmm 12, .xmm 13, .xmm 14, .xmm 15]

def ccX86_64JWA : List CCAction := [
  .toType [.i8, .i16, .i32] .i64,
  .assignToReg [.i64] x86_64GPRs,
  .assignToReg [.f32, .f64] x86_64FPRs]

def aarch64GPRs : List PhysReg := [
  .x 24, .x 25, .x 26, .x 27, .x 28,
  .x 3, .x 2, .x 1,
  .x 4, .x 5, .x 6,
  .x 0, .x 7, .x 8, .x 9, .x 10, .x 11, .x 12,
  .x 13, .x 14, .x 15, .x 16, .x 19, .x 20,
  .x 21, .x 22, .x 23]

def aarch64SRegs : List PhysReg := [
  .s 0, .s 1, .s 2, .s 3, .s 4, .s 5, .s 6, .s 7,
  .s 8, .s 9, .s 10, .s 11, .s 12, .s 13, .s 14, .s 15,
  .s 16, .s 17, .s 18, .s 19, .s 20, .s 21, .s 22, .s 23,
  .s 24, .s 25, .s 26, .s 27, .s 28, .s 29, .s 30, .s 31]

def aarch64DRegs : List PhysReg := [
  .d 0, .d 1, .d 2, .d 3, .d 4, .d 5, .d 6, .d 7,
  .d 8, .d 9, .d 10, .d 11, .d 12, .d 13, .d 14, .d 15,
  .d 16, .d 17, .d 18, .d 19, .d 20, .d 21, .d 22, .d 23,
  .d 24, .d 25, .d 26, .d 27, .d 28, .d 29, .d 30, .d 31]

def ccAArch64JWA : List CCAction := [
  .toType [.iPTR] .i64,
  .toType [.i1, .i8, .i16, .i32] .i64,
  .assignToReg [.i64] aarch64GPRs,
  .assignToReg [.f32] aarch64SRegs,
  .assignToReg [.f64] aarch64DRegs]

def assignArg (used : List PhysReg) : List CCAction → Mvt → Option PhysReg
  | [], _ => none
  | .toType tys destTy :: rest, vt => assignArg used rest (if vt ∈ tys then destTy else vt)
  | .assignToReg tys regs :: rest, vt =>
    if vt ∈ tys then
      match firstUnallocated PhysReg.overlaps used regs with
      | some r => some r
      | none => assignArg used rest vt
    else assignArg used rest vt

def analyzeArguments (conv : List CCAction) (used : List PhysReg) :
    List Mvt → Option (List PhysReg)
  | [] => some []
  | vt :: vts => do
      let r ← assignArg used conv vt
      let rs ← analyzeArguments conv (r :: used) vts
      some (r :: rs)

def LlvmTy.toMvt : LlvmTy → Mvt
  | i8 => .i8
  | i16 => .i16
  | i32 => .i32
  | i64 => .i64
  | f32 => .f32
  | f64 => .f64
  | ptr => .i64

def LlvmTy.isFloat : LlvmTy → Bool
  | f32 | f64 => true
  | _ => false

inductive JwaTarget where
  | x86_64
  | aarch64
  deriving DecidableEq, Repr

def JwaTarget.info : JwaTarget → TargetInfo
  | x86_64 => x86_64Info
  | aarch64 => arm64Info

def JwaTarget.convention : JwaTarget → List CCAction
  | x86_64 => ccX86_64JWA
  | aarch64 => ccAArch64JWA

def JwaTarget.gprs : JwaTarget → List PhysReg
  | x86_64 => x86_64GPRs
  | aarch64 => aarch64GPRs

def JwaTarget.fprs : JwaTarget → LlvmTy → List PhysReg
  | x86_64, _ => x86_64FPRs
  | aarch64, .f32 => aarch64SRegs
  | aarch64, _ => aarch64DRegs

def JwaTarget.numFPRs : JwaTarget → Nat
  | x86_64 => 16
  | aarch64 => 32

def gpIndex (params : List LlvmTy) (i : Nat) : Nat := (params.take i).countP (!·.isFloat)

/-- No parameter falls through, no two share a register, integers take their list in order. -/
def AssignsRegisters (t : JwaTarget) (params : List LlvmTy) : Prop :=
  ∃ regs, analyzeArguments t.convention [] (params.map LlvmTy.toMvt) = some regs ∧
    regs.length = params.length ∧ regs.Pairwise (fun r r' => ¬ r'.overlaps r) ∧
    ∀ i ty, params[i]? = some ty → ¬ ty.isFloat → regs[i]? = t.gprs[gpIndex params i]?

def CfgTy.isFLTt : CfgTy → Bool
  | fltt _ => true
  | _ => false

/-- The transfers that pass arguments in registers. -/
inductive Transfer where
  | apply
  | throw
  deriving DecidableEq, Repr

def argsLeft (maxGP maxFP : Int) (tys : List CfgTy) : Int × Int :=
  tys.foldl (fun n ty => if ty.isFLTt then (n.1, n.2 - 1) else (n.1 - 1, n.2)) (maxGP, maxFP)

def passesCheck (target : TargetInfo) (op : Transfer) (tys : List CfgTy) : Bool :=
  let maxGP : Int := match op with
    | .apply => target.numGPArgRegs
    | .throw => target.numGPArgRegs - 2
  let left := argsLeft maxGP target.numFPArgRegs tys
  !(left.1 < 0 || left.2 < 0)

def paramTys (t : JwaTarget) (attrs : Attrs) (kind : FragKind) (tys : List CfgTy) : List LlvmTy :=
  createFnTy t.info attrs kind (tys.map (CfgTy.codegen t.info))

/-- The first `a` integer and the first `b` floating-point registers are taken. -/
structure PoolsUsed (t : JwaTarget) (used : List PhysReg) (a b : Nat) : Prop where
  gp : UsedUpTo PhysReg.overlaps used t.gprs a
  fp : ∀ ty, UsedUpTo PhysReg.overlaps used (t.fprs ty) b

theorem gprs_aligned (t : JwaTarget) : Aligned PhysReg.overlaps t.gprs t.gprs := by
  refine aligned_of_getElem ?_
  cases t <;> decide +kernel

theorem fprs_eq (t : JwaTarget) (ty : LlvmTy) : ∃ view n, t.fprs ty = (List.range n).map view ∧
    (t = .x86_64 ∧ view = .xmm ∨ t = .aarch64 ∧ (view = .s ∨ view = .d)) := by
  cases t with
  | x86_64 => exact ⟨.xmm, 16, rfl, Or.inl ⟨rfl, rfl⟩⟩
  | aarch64 =>
    by_cases h : ty = .f32
    · subst h
      exact ⟨.s, 32, rfl, Or.inr ⟨rfl, Or.inl rfl⟩⟩
    · have hd : JwaTarget.fprs .aarch64 ty = (List.range 32).map .d := by
        cases ty <;> first | rfl | exact absurd rfl h
      exact ⟨.d, 32, hd, Or.inr ⟨rfl, Or.inr rfl⟩⟩

theorem fprs_aligned (t : JwaTarget) (ty ty' : LlvmTy) :
    Aligned PhysReg.overlaps (t.fprs ty) (t.fprs ty') := by
  obtain ⟨view, n, hn, hview⟩ := fprs_eq t ty
  obtain ⟨view', m, hm, hview'⟩ := fprs_eq t ty'
  rw [hn, hm]
  refine aligned_map_range n m fun i j => ?_
  rcases hview with ⟨rfl, rfl⟩ | ⟨rfl, rfl | rfl⟩ <;>
    rcases hview' with ⟨ht, rfl⟩ | ⟨ht, rfl | rfl⟩ <;>
    first
    | exact absurd ht (by decide)
    | rw [Bool.eq_iff_iff]; simp [PhysReg.overlaps]

theorem gprs_fprs (t : JwaTarget) (ty : LlvmTy) :
    ∀ r ∈ t.gprs, ∀ s ∈ t.fprs ty, ¬ r.overlaps s ∧ ¬ s.overlaps r := by
  obtain ⟨view, n, hn, hview⟩ := fprs_eq t ty
  intro r hr s hs
  rw [hn] at hs
  obtain ⟨i, _, rfl⟩ := List.mem_map.mp hs
  rcases hview with ⟨rfl, rfl⟩ | ⟨rfl, rfl | rfl⟩
  all_goals
    revert r
    simp [JwaTarget.gprs, x86_64GPRs, aarch64GPRs, PhysReg.overlaps]

theorem fprs_length (t : JwaTarget) (ty : LlvmTy) : (t.fprs ty).length = t.numFPRs := by
  cases t with
  | x86_64 => rfl
  | aarch64 => cases ty <;> rfl

variable {a b : Nat} {r : PhysReg} {t : JwaTarget} {used : List PhysReg}

theorem assignArg_free {conv : List CCAction} {vt : Mvt} (h : assignArg used conv vt = some r) :
    ¬ isAllocated PhysReg.overlaps used r := by
  induction conv generalizing vt with
  | nil => cases h
  | cons action conv ih =>
    cases action with
    | toType tys destTy => exact ih h
    | assignToReg tys regs =>
      rw [assignArg] at h
      split at h
      · cases hf : firstUnallocated PhysReg.overlaps used regs with
        | none =>
          rw [hf] at h
          exact ih h
        | some r' =>
          rw [hf, Option.some.injEq] at h
          subst h
          exact firstUnallocated_free hf
      · exact ih h

theorem PoolsUsed.nil (t : JwaTarget) : PoolsUsed t [] 0 0 :=
  ⟨usedUpTo_nil _, fun _ => usedUpTo_nil _⟩

theorem PoolsUsed.assignArg (h : PoolsUsed t used a b) (ty : LlvmTy) :
    assignArg used t.convention ty.toMvt =
      if ty.isFloat then (t.fprs ty)[b]? else t.gprs[a]? := by
  have hgp := firstUnallocated_eq h.gp
  have hfp := firstUnallocated_eq (h.fp ty)
  cases t with
  | x86_64 =>
    simp only [JwaTarget.convention, JwaTarget.gprs, JwaTarget.fprs] at hgp hfp ⊢
    cases ty <;> simp [ccX86_64JWA, Codegen.assignArg, LlvmTy.toMvt, LlvmTy.isFloat, hgp, hfp] <;>
      split <;> simp_all
  | aarch64 =>
    simp only [JwaTarget.convention, JwaTarget.gprs, JwaTarget.fprs] at hgp hfp ⊢
    cases ty <;> simp [ccAArch64JWA, Codegen.assignArg, LlvmTy.toMvt, LlvmTy.isFloat, hgp, hfp] <;>
      split <;> simp_all

theorem PoolsUsed.gp_step (h : PoolsUsed t used a b) (hr : t.gprs[a]? = some r) :
    PoolsUsed t (r :: used) (a + 1) b :=
  ⟨h.gp.alloc (gprs_aligned t) hr, fun ty => (h.fp ty).other fun s hs =>
    (gprs_fprs t ty r (List.mem_of_getElem? hr) s hs).2⟩

theorem PoolsUsed.fp_step {ty : LlvmTy} (h : PoolsUsed t used a b) (hr : (t.fprs ty)[b]? = some r) :
    PoolsUsed t (r :: used) a (b + 1) :=
  ⟨h.gp.other fun s hs => (gprs_fprs t ty s hs r (List.mem_of_getElem? hr)).1,
    fun ty' => (h.fp ty').alloc (fprs_aligned t ty' ty) hr⟩

theorem analyzeArguments_cons (h : PoolsUsed t used a b) (ty : LlvmTy) (params : List LlvmTy) :
    analyzeArguments t.convention used ((ty :: params).map LlvmTy.toMvt) =
      (if ty.isFloat then (t.fprs ty)[b]? else t.gprs[a]?).bind fun r =>
        (analyzeArguments t.convention (r :: used) (params.map LlvmTy.toMvt)).map (r :: ·) := by
  rw [← h.assignArg ty, List.map_cons, analyzeArguments]
  cases assignArg used t.convention ty.toMvt with
  | none => rfl
  | some r =>
    cases hrest : analyzeArguments t.convention (r :: used) (params.map LlvmTy.toMvt) with
    | none => simp [hrest]
    | some rs => simp [hrest]

theorem analyzeArguments_isSome_iff (h : PoolsUsed t used a b) (ha : a ≤ t.gprs.length)
    (hb : b ≤ t.numFPRs) (params : List LlvmTy) :
    (analyzeArguments t.convention used (params.map LlvmTy.toMvt)).isSome ↔
      a + params.countP (!·.isFloat) ≤ t.gprs.length ∧
        b + params.countP (·.isFloat) ≤ t.numFPRs := by
  induction params generalizing used a b with
  | nil => simp [analyzeArguments, ha, hb]
  | cons ty params ih =>
    rw [analyzeArguments_cons h, List.countP_cons, List.countP_cons]
    by_cases hty : ty.isFloat
    · simp only [hty, if_true, Bool.not_true, Bool.false_eq_true, if_false, Nat.add_zero]
      by_cases hlt : b < t.numFPRs
      · obtain ⟨r, hr⟩ : ∃ r, (t.fprs ty)[b]? = some r :=
          ⟨_, List.getElem?_eq_getElem (by rwa [fprs_length])⟩
        rw [hr, Option.bind_some, Option.isSome_map, ih (h.fp_step hr) ha hlt]
        omega
      · have hnone : (t.fprs ty)[b]? = none :=
          List.getElem?_eq_none (by rw [fprs_length]; omega)
        rw [hnone]
        simp only [Option.bind_none, Option.isSome_none, Bool.false_eq_true, false_iff]
        omega
    · simp only [hty, if_false, Bool.not_false, if_true, Bool.false_eq_true, Nat.add_zero]
      by_cases hlt : a < t.gprs.length
      · have hr := List.getElem?_eq_getElem hlt
        rw [hr, Option.bind_some, Option.isSome_map, ih (h.gp_step hr) hlt hb]
        omega
      · have hnone : t.gprs[a]? = none := List.getElem?_eq_none (by omega)
        rw [hnone]
        simp only [Option.bind_none, Option.isSome_none, Bool.false_eq_true, false_iff]
        omega

theorem analyzeArguments_spec (h : PoolsUsed t used a b) {params : List LlvmTy}
    {regs : List PhysReg}
    (hr : analyzeArguments t.convention used (params.map LlvmTy.toMvt) = some regs) :
    regs.length = params.length ∧
      (∀ r ∈ regs, ¬ isAllocated PhysReg.overlaps used r) ∧
      regs.Pairwise (fun r r' => ¬ r'.overlaps r) ∧
      ∀ i ty, params[i]? = some ty → ¬ ty.isFloat →
        regs[i]? = t.gprs[a + gpIndex params i]? := by
  induction params generalizing used a b regs with
  | nil =>
    cases hr
    simp
  | cons ty params ih =>
    have hassign := h.assignArg ty
    rw [analyzeArguments_cons h, ← hassign, Option.bind_eq_some_iff] at hr
    obtain ⟨r, hreg, hrest⟩ := hr
    rw [Option.map_eq_some_iff] at hrest
    obtain ⟨rs, hrs, rfl⟩ := hrest
    have hfree := assignArg_free hreg
    rw [hassign] at hreg
    -- the class of the first argument decides which pool moves on
    have hstep : ∃ a' b', PoolsUsed t (r :: used) a' b' ∧
        a' = a + (if ty.isFloat then 0 else 1) := by
      by_cases hty : ty.isFloat
      · rw [if_pos hty] at hreg ⊢
        exact ⟨a, b + 1, h.fp_step hreg, rfl⟩
      · rw [if_neg hty] at hreg ⊢
        exact ⟨a + 1, b, h.gp_step hreg, rfl⟩
    obtain ⟨a', b', h', ha'⟩ := hstep
    obtain ⟨hlen, hused, hpair, hgp⟩ := ih h' hrs
    refine ⟨by simp [hlen], ?_, List.pairwise_cons.mpr ⟨fun r' hr' => ?_, hpair⟩, ?_⟩
    · intro r' hr'
      rcases List.mem_cons.mp hr' with rfl | hr'
      · exact hfree
      · exact fun hal => hused r' hr' ((isAllocated_cons _ _ _).mpr (Or.inr hal))
    · exact fun hov => hused r' hr' ((isAllocated_cons _ _ _).mpr (Or.inl hov))
    · intro i ty' hi hty'
      cases i with
      | zero =>
        obtain rfl : ty = ty' := by simpa using hi
        rw [if_neg hty'] at hreg
        rw [gpIndex, List.take_zero, List.countP_nil, Nat.add_zero, hreg]
        rfl
      | succ i =>
        rw [List.getElem?_cons_succ] at hi ⊢
        rw [hgp i ty' hi hty', ha', gpIndex, gpIndex, List.take_succ_cons, List.countP_cons]
        congr 1
        by_cases hty : ty.isFloat
        · simp [hty]
        · simp only [hty, Bool.not_false, Bool.false_eq_true, if_false, if_true]
          omega

theorem assignsRegisters_iff (t : JwaTarget) (params : List LlvmTy) :
    AssignsRegisters t params ↔ params.countP (!·.isFloat) ≤ t.gprs.length ∧
      params.countP (·.isFloat) ≤ t.numFPRs := by
  have hsome := analyzeArguments_isSome_iff (PoolsUsed.nil t) (Nat.zero_le _) (Nat.zero_le _) params
  rw [Nat.zero_add, Nat.zero_add] at hsome
  rw [← hsome, Option.isSome_iff_exists]
  constructor
  · rintro ⟨regs, hregs, _⟩
    exact ⟨regs, hregs⟩
  · rintro ⟨regs, hregs⟩
    obtain ⟨hlen, _, hpair, hgp⟩ := analyzeArguments_spec (PoolsUsed.nil t) hregs
    refine ⟨regs, hregs, hlen, hpair, fun i ty hi hty => ?_⟩
    rw [hgp i ty hi hty, Nat.zero_add]

theorem argsLeft_eq (maxGP maxFP : Int) (tys : List CfgTy) :
    argsLeft maxGP maxFP tys =
      (maxGP - tys.countP (!·.isFLTt), maxFP - tys.countP (·.isFLTt)) := by
  rw [argsLeft]
  induction tys generalizing maxGP maxFP with
  | nil => simp
  | cons ty tys ih =>
    rw [List.foldl_cons]
    by_cases hty : ty.isFLTt
    · rw [if_pos hty, ih, List.countP_cons, List.countP_cons]
      simp only [hty, Bool.not_true, Bool.false_eq_true, if_false, if_true, Prod.mk.injEq]
      omega
    · rw [if_neg hty, ih, List.countP_cons, List.countP_cons]
      simp only [hty, Bool.not_false, Bool.false_eq_true, if_false, if_true, Prod.mk.injEq]
      omega

theorem isFloat_codegen (t : JwaTarget) (ty : CfgTy) :
    (ty.codegen t.info).isFloat = ty.isFLTt := by
  cases ty with
  | labt => rfl
  | ptrt => rfl
  | tagt => cases t <;> rfl
  | numt sz =>
    simp only [CfgTy.codegen, iType]
    split_ifs <;> rfl
  | fltt sz =>
    simp only [CfgTy.codegen, fType]
    split_ifs <;> rfl

theorem paramTys_counts (t : JwaTarget) (attrs : Attrs) (kind : FragKind) (tys : List CfgTy) :
    (paramTys t attrs kind tys).countP (!·.isFloat) = t.info.numMachineRegs +
        (getArgInfo t.info attrs kind).nUnused + tys.countP (!·.isFLTt) ∧
      (paramTys t attrs kind tys).countP (·.isFloat) = tys.countP (·.isFLTt) := by
  have huses : t.info.usesBasePtr = false := by
    cases t <;> rfl
  have hbase : (getArgInfo t.info attrs kind).basePtr = 0 := by
    cases kind <;> simp [getArgInfo, huses]
  have hextra : (getArgInfo t.info attrs kind).nExtra = t.info.numMachineRegs := by
    cases kind <;> rfl
  have hfloat : LlvmTy.ptr.isFloat = false := rfl
  simp only [paramTys, createFnTy, createParamTys, addExtraParamTys, hbase, hextra,
    List.countP_append, List.countP_map, List.countP_replicate, Function.comp_def, isFloat_codegen,
    mlValueTy, hfloat]
  simp

theorem gprs_length (t : JwaTarget) :
    t.gprs.length = t.info.numMachineRegs + t.info.numGPArgRegs := by
  cases t <;> decide

theorem nUnused_eq (t : JwaTarget) (attrs : Attrs) (kind : FragKind) :
    (getArgInfo t.info attrs kind).nUnused = if kind = .stdCont then 2 else 0 := by
  cases kind <;> rfl

/--
A list that passes the check of its transfer is assigned to registers, except
for an APPLY of a continuation that uses the two registers THROW leaves unused.
-/
theorem jwa_assignsRegisters_iff (t : JwaTarget) (attrs : Attrs) (op : Transfer) (kind : FragKind)
    {tys : List CfgTy} (h : passesCheck t.info op tys) :
    AssignsRegisters t (paramTys t attrs kind tys) ↔
      ¬ (op = .apply ∧ kind = .stdCont ∧
        t.info.numGPArgRegs < tys.countP (!·.isFLTt) + 2) := by
  obtain ⟨hgp, hfp⟩ := paramTys_counts t attrs kind tys
  have hfpregs : (t.info.numFPArgRegs : Nat) = t.numFPRs := by
    cases t <;> rfl
  rw [assignsRegisters_iff, hgp, hfp, gprs_length, nUnused_eq]
  simp only [passesCheck, argsLeft_eq, Bool.not_eq_true', Bool.or_eq_false_iff,
    decide_eq_false_iff_not, Int.not_lt] at h
  cases op with
  | apply =>
    by_cases hk : kind = .stdCont
    · simp only [hk, if_true, true_and, Nat.not_lt] at h ⊢
      omega
    · simp only [hk, if_false, false_and, and_false, not_false_eq_true, iff_true] at h ⊢
      omega
  | throw =>
    have hle : (if kind = .stdCont then 2 else 0) ≤ 2 := by split <;> decide
    simp only [reduceCtorEq, false_and, not_false_eq_true, iff_true] at h ⊢
    omega

theorem jwa_assignsRegisters_throw :
    passesCheck JwaTarget.x86_64.info .throw [.ptrt, .fltt 64, .numt 8, .fltt 32] ∧
      AssignsRegisters .x86_64 (paramTys .x86_64 ⟨false⟩ .stdCont
        [.ptrt, .fltt 64, .numt 8, .fltt 32]) := by
  have h : passesCheck JwaTarget.x86_64.info .throw [.ptrt, .fltt 64, .numt 8, .fltt 32] := by
    decide
  exact ⟨h, (jwa_assignsRegisters_iff .x86_64 ⟨false⟩ .throw .stdCont h).mpr (by simp)⟩

/-- Ten pointers applied to a continuation on X86-64: fifteen integer parameters. -/
theorem jwa_apply_stdCont_falls_through :
    passesCheck JwaTarget.x86_64.info .apply (List.replicate 10 .ptrt) ∧
      analyzeArguments JwaTarget.x86_64.convention []
        ((paramTys .x86_64 ⟨false⟩ .stdCont (List.replicate 10 .ptrt)).map LlvmTy.toMvt) = none ∧
      ¬ AssignsRegisters .x86_64 (paramTys .x86_64 ⟨false⟩ .stdCont (List.replicate 10 .ptrt)) := by
  have hnone : analyzeArguments JwaTarget.x86_64.convention []
      ((paramTys .x86_64 ⟨false⟩ .stdCont (List.replicate 10 .ptrt)).map LlvmTy.toMvt) = none := by
    decide
  refine ⟨by decide, hnone, ?_⟩
  rintro ⟨regs, hregs, _⟩
  rw [hnone] at hregs
  cases hregs

end SmlnjLlvm.Codegen
