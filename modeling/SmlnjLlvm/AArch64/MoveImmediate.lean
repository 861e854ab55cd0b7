import SmlnjLlvm.AArch64.LogicalImmediate
import SmlnjLlvm.Library.Chunks

/-!
# Instructions that move immediates

The instructions that immediates expand to, each on one register, with zero as
the other source where `Op1` says so. An operand without an encoding has no
meaning.
-/

namespace SmlnjLlvm.AArch64

open Chunks

inductive Opcode where
  | ORRWri
  | ORRXri
  | ANDXri
  | EORXri
  | MOVNWi
  | MOVNXi
  | MOVZWi
  | MOVZXi
  | MOVKWi
  | MOVKXi
deriving DecidableEq

structure ImmInsnModel where
  Opcode : Opcode
  Op1 : BitVec 64
  Op2 : BitVec 64

def getShifterImm (Imm : Nat) : Option (BitVec 64) := do
  guard (Imm < 64)
  some (BitVec.ofNat 64 Imm)

def Opcode.logicalSize : Opcode → Option Nat
  | ORRWri => some 32
  | ORRXri => some 64
  | ANDXri => some 64
  | EORXri => some 64
  | _ => none

def movePosition (Size : Nat) (Op1 Op2 : BitVec 64) : Option Nat := do
  guard (Op1.toNat < 2 ^ 16 ∧ Op2.toNat % 16 = 0 ∧ Op2.toNat < Size)
  some (Op2.toNat / 16)

def narrow (x : BitVec 64) : BitVec 64 := (x.setWidth 32).setWidth 64

def ImmInsnModel.source (I : ImmInsnModel) (Rd : BitVec 64) : BitVec 64 :=
  if I.Op1 = 0 then 0 else Rd

def ImmInsnModel.exec (I : ImmInsnModel) (Rd : BitVec 64) : Option (BitVec 64) :=
  match I.Opcode with
  | .ORRWri => do
      guard (isValidDecodeLogicalImmediate I.Op2 32 = true)
      let imm ← decodeLogicalImmediate I.Op2 32
      some (narrow (I.source Rd ||| imm))
  | .ORRXri => do
      guard (isValidDecodeLogicalImmediate I.Op2 64 = true)
      let imm ← decodeLogicalImmediate I.Op2 64
      some (I.source Rd ||| imm)
  | .ANDXri => do
      guard (isValidDecodeLogicalImmediate I.Op2 64 = true)
      let imm ← decodeLogicalImmediate I.Op2 64
      some (I.source Rd &&& imm)
  | .EORXri => do
      guard (isValidDecodeLogicalImmediate I.Op2 64 = true)
      let imm ← decodeLogicalImmediate I.Op2 64
      some (I.source Rd ^^^ imm)
  | .MOVNWi => do
      let pos ← movePosition 32 I.Op1 I.Op2
      some (narrow (~~~setChunk 0 pos I.Op1))
  | .MOVNXi => do
      let pos ← movePosition 64 I.Op1 I.Op2
      some (~~~setChunk 0 pos I.Op1)
  | .MOVZWi => do
      let pos ← movePosition 32 I.Op1 I.Op2
      some (narrow (setChunk 0 pos I.Op1))
  | .MOVZXi => do
      let pos ← movePosition 64 I.Op1 I.Op2
      some (setChunk 0 pos I.Op1)
  | .MOVKWi => do
      let pos ← movePosition 32 I.Op1 I.Op2
      some (narrow (setChunk Rd pos I.Op1))
  | .MOVKXi => do
      let pos ← movePosition 64 I.Op1 I.Op2
      some (setChunk Rd pos I.Op1)

def execAll (Insn : List ImmInsnModel) (Rd : BitVec 64) : Option (BitVec 64) :=
  Insn.foldlM (fun Rd I => I.exec Rd) Rd

def ImmInsnModel.LogicalOk (I : ImmInsnModel) : Prop :=
  ∀ Size, I.Opcode.logicalSize = some Size →
    I.Op2.toNat < 2 ^ 13 ∧ isValidDecodeLogicalImmediate I.Op2 Size = true

structure Encodes (e Imm : BitVec 64) (Size : Nat) : Prop where
  lt : e.toNat < 2 ^ 13
  valid : isValidDecodeLogicalImmediate e Size = true
  decode : decodeLogicalImmediate e Size = some Imm

def IsRun (Imm : BitVec 64) : Prop :=
  ∃ l R n, 0 < l ∧ l ≤ 6 ∧ 0 < n ∧ n < 2 ^ l ∧ Repeats Imm 6 l R n

theorem Repeats.mod {Imm : BitVec 64} {r l R n : Nat} (h : Repeats Imm r l R n) :
    Repeats Imm r l (R % 2 ^ l) n := by
  intro i
  rw [h i]
  unfold BitRuns.ringRun
  rw [Nat.add_mod_mod]

theorem processLogicalImmediate_cases (Imm : BitVec 64) :
    (processLogicalImmediate Imm 64 = some none ∧ ¬IsRun Imm) ∨
      ∃ e, processLogicalImmediate Imm 64 = some (some e) ∧ Encodes e Imm 64 := by
  obtain ⟨hsome, _, hsound, _⟩ := processLogicalImmediate_exact (Or.inr rfl) Imm
  cases hprocess : processLogicalImmediate Imm 64 with
  | none => exact absurd hprocess hsome
  | some result =>
    cases result with
    | none =>
      refine Or.inl ⟨rfl, ?_⟩
      intro hrun
      obtain ⟨l, R, n, hl, hle, hn, hlt, hrepeats⟩ := hrun
      obtain ⟨e, he⟩ := processLogicalImmediate_complete (Or.inr rfl) hl hle hn hlt
        (Nat.mod_lt R (Nat.two_pow_pos l)) hrepeats.mod
      have hcontra := he.symm.trans hprocess
      cases hcontra
    | some e =>
      obtain ⟨hlt, hvalid, hdecode⟩ := hsound e hprocess
      exact Or.inr ⟨e, rfl, hlt, hvalid, hdecode⟩

theorem IsRun.encodes {Imm : BitVec 64} (h : IsRun Imm) :
    ∃ e, processLogicalImmediate Imm 64 = some (some e) ∧ Encodes e Imm 64 := by
  rcases processLogicalImmediate_cases Imm with hnot | he
  · exact absurd h hnot.2
  · exact he

/-- At most four instructions with proper operands that leave `v` in the register. -/
structure Builds (Insn : List ImmInsnModel) (v : BitVec 64) : Prop where
  length : Insn.length ≤ 4
  logical : ∀ I ∈ Insn, I.LogicalOk
  exec : ∀ Rd, execAll Insn Rd = some v

theorem execAll_cons (I : ImmInsnModel) (Insn : List ImmInsnModel) (Rd : BitVec 64) :
    execAll (I :: Insn) Rd = (I.exec Rd).bind (execAll Insn) := rfl

theorem execAll_nil (Rd : BitVec 64) : execAll [] Rd = some Rd := rfl

theorem Encodes.logicalOk {e Imm Op1 : BitVec 64} {Opc : Opcode} (h : Encodes e Imm 64)
    (hsize : Opc.logicalSize = some 64) :
    ImmInsnModel.LogicalOk { Opcode := Opc, Op1 := Op1, Op2 := e } := by
  intro Size hSize
  have heq : Size = 64 := Option.some.inj (hSize.symm.trans hsize)
  rw [heq]
  exact ⟨h.lt, h.valid⟩

theorem Encodes.exec_orr {e Imm Op1 : BitVec 64} (h : Encodes e Imm 64) (Rd : BitVec 64) :
    ImmInsnModel.exec { Opcode := .ORRXri, Op1 := Op1, Op2 := e } Rd =
      some ((if Op1 = 0 then 0 else Rd) ||| Imm) := by
  simp only [ImmInsnModel.exec, guard, if_pos h.valid, h.decode, Option.pure_def,
    Option.bind_eq_bind, Option.bind_some]
  rfl

theorem Encodes.exec_and {e Imm Op1 : BitVec 64} (h : Encodes e Imm 64) (Rd : BitVec 64) :
    ImmInsnModel.exec { Opcode := .ANDXri, Op1 := Op1, Op2 := e } Rd =
      some ((if Op1 = 0 then 0 else Rd) &&& Imm) := by
  simp only [ImmInsnModel.exec, guard, if_pos h.valid, h.decode, Option.pure_def,
    Option.bind_eq_bind, Option.bind_some]
  rfl

theorem Encodes.exec_eor {e Imm Op1 : BitVec 64} (h : Encodes e Imm 64) (Rd : BitVec 64) :
    ImmInsnModel.exec { Opcode := .EORXri, Op1 := Op1, Op2 := e } Rd =
      some ((if Op1 = 0 then 0 else Rd) ^^^ Imm) := by
  simp only [ImmInsnModel.exec, guard, if_pos h.valid, h.decode, Option.pure_def,
    Option.bind_eq_bind, Option.bind_some]
  rfl

theorem movePosition_eq {Size i : Nat} {c : BitVec 64} (hc : c.toNat < 2 ^ 16)
    (hSize : Size ≤ 64) (hi : i * 16 < Size) :
    movePosition Size c (BitVec.ofNat 64 (i * 16)) = some i := by
  have hop : (BitVec.ofNat 64 (i * 16)).toNat = i * 16 := by
    rw [BitVec.toNat_ofNat, Nat.mod_eq_of_lt (by omega)]
  unfold movePosition guard
  rw [hop, if_pos ⟨hc, Nat.mul_mod_left i 16, hi⟩, Nat.mul_div_cancel i (by decide)]
  rfl

theorem getShifterImm_eq {i : Nat} (hi : i < 4) :
    getShifterImm (i * 16) = some (BitVec.ofNat 64 (i * 16)) := by
  unfold getShifterImm guard
  rw [if_pos (by omega)]
  rfl

end SmlnjLlvm.AArch64
