import Mathlib.Logic.Function.Basic

/-!
# Targets, types and CMachine registers

The special registers of the CMachine are threaded through the generated code
as extra arguments. A target allocates some of them in the stack frame instead;
those are loaded and stored where they are used and are never passed.
-/

namespace SmlnjLlvm.Codegen

/-- The first-class LLVM types that the code generator uses. -/
inductive LlvmTy where
  | i8
  | i16
  | i32
  | i64
  | f32
  | f64
  | ptr
  deriving DecidableEq, Repr

def LlvmTy.isPointerTy : LlvmTy → Bool
  | ptr => true
  | _ => false

def LlvmTy.isIntegerTy : LlvmTy → Bool
  | i8 | i16 | i32 | i64 => true
  | _ => false

def mlValueTy : LlvmTy := .ptr

def iType (sz : Nat) : LlvmTy :=
  if sz = 64 then .i64
  else if sz = 32 then .i32
  else if sz = 16 then .i16
  else .i8

def fType (sz : Nat) : LlvmTy := if sz = 64 then .f64 else .f32

inductive NumKind where
  | int
  | flt
  deriving DecidableEq, Repr

def numType (k : NumKind) (sz : Nat) : LlvmTy :=
  match k with
  | .int => iType sz
  | .flt => fType sz

inductive CMRegId where
  | allocPtr
  | limitPtr
  | storePtr
  | exnHndlr
  | varPtr
  deriving DecidableEq, Repr

def CMRegId.all : List CMRegId := [allocPtr, limitPtr, storePtr, exnHndlr, varPtr]

theorem CMRegId.mem_all (r : CMRegId) : r ∈ all := by
  cases r <;> decide

theorem CMRegId.all_nodup : all.Nodup := by
  decide

/-- The part of a target description that code generation depends on. -/
structure TargetInfo where
  wordSz : Nat
  numGPArgRegs : Nat
  numFPArgRegs : Nat
  numCalleeSaves : Nat
  hasPCRel : Bool
  /-- Zero for a register that has a hardware register. -/
  stkOffset : CMRegId → Nat
  callGCOffset : Nat
  raiseOvflwOffset : Nat
  allocSlopSzb : Nat

namespace TargetInfo

variable (target : TargetInfo)

def intTy : LlvmTy := if target.wordSz = 32 then .i32 else .i64

def wordSzB : Nat := if target.wordSz = 32 then 4 else 8

def usesBasePtr : Bool := !target.hasPCRel

def isMachineReg (r : CMRegId) : Bool := target.stkOffset r = 0

def machineRegs : List CMRegId := CMRegId.all.filter target.isMachineReg

def numMachineRegs : Nat := target.machineRegs.length

theorem mem_machineRegs {r : CMRegId} : r ∈ target.machineRegs ↔ target.isMachineReg r := by
  simp [machineRegs, CMRegId.mem_all]

theorem machineRegs_nodup : target.machineRegs.Nodup := CMRegId.all_nodup.filter _

end TargetInfo

def arm64Info : TargetInfo where
  wordSz := 64
  numGPArgRegs := 22
  numFPArgRegs := 32
  numCalleeSaves := 3
  hasPCRel := true
  stkOffset := fun _ => 0
  callGCOffset := 8216
  raiseOvflwOffset := 8208
  allocSlopSzb := 8 * 1024

def x86_64Info : TargetInfo where
  wordSz := 64
  numGPArgRegs := 11
  numFPArgRegs := 16
  numCalleeSaves := 3
  hasPCRel := true
  stkOffset
    | .exnHndlr => 8224
    | .varPtr => 8232
    | _ => 0
  callGCOffset := 8240
  raiseOvflwOffset := 8248
  allocSlopSzb := 8 * 1024

/-- The LLVM values that stand for the registers; `none` is the null pointer. -/
structure CMRegState (α : Type) where
  basePtr : Option α
  val : CMRegId → Option α

namespace CMRegState

variable {α : Type}

def get (st : CMRegState α) (r : CMRegId) : Option α := st.val r

def set (st : CMRegState α) (r : CMRegId) (v : Option α) : CMRegState α :=
  { st with val := Function.update st.val r v }

def setBasePtr (st : CMRegState α) (v : α) : CMRegState α := { st with basePtr := some v }

def clearBasePtr (st : CMRegState α) : CMRegState α := { st with basePtr := none }

def copyFrom (st cache : CMRegState α) : CMRegState α := { st with val := cache.val }

@[simp] theorem get_set_same (st : CMRegState α) (r : CMRegId) (v : Option α) :
    (st.set r v).get r = v := by
  simp [get, set]

theorem get_set_of_ne (st : CMRegState α) {r r' : CMRegId} (v : Option α) (h : r' ≠ r) :
    (st.set r v).get r' = st.get r' := by
  simp [get, set, h]

end CMRegState

end SmlnjLlvm.Codegen
