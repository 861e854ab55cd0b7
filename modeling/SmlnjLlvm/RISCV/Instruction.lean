import SmlnjLlvm.Support.IntRange

/-!
# Instructions that materialise integers

Each instruction of a sequence works on the result of the one before it, as its
operand kind says. An instruction that the register width does not have, or
whose immediate has no encoding, has no meaning.
-/

namespace SmlnjLlvm.RISCV

open Support

inductive Opcode where
  | LUI
  | ADDI
  | ADDIW
  | XORI
  | SLLI
  | SRLI
  | SLLI_UW
  | ADD
  | ADD_UW
  | SH1ADD
  | SH2ADD
  | SH3ADD
  | PACK
  | BSETI
  | BCLRI
  | RORI
  | TH_SRRI
deriving DecidableEq

inductive OpndKind where
  | RegImm
  | Imm
  | RegReg
  | RegX0
deriving DecidableEq

structure Inst where
  Opc : Opcode
  Imm : BitVec 64
deriving DecidableEq

abbrev InstSeq := List Inst

def Inst.getOpndKind (I : Inst) : Option OpndKind :=
  match I.Opc with
  | .LUI => some .Imm
  | .ADD_UW => some .RegX0
  | .SH1ADD | .SH2ADD | .SH3ADD | .PACK => some .RegReg
  | .ADDI | .ADDIW | .XORI | .SLLI | .SRLI | .SLLI_UW | .RORI | .BSETI | .BCLRI | .TH_SRRI =>
    some .RegImm
  | .ADD => none

variable {w : Nat}

def sextW (x : BitVec w) : BitVec w := (x.setWidth 32).signExtend w

def zextW (x : BitVec w) : BitVec w := (x.setWidth 32).setWidth w

def Opcode.result (Opc : Opcode) (rs1 rs2 : BitVec w) (imm : BitVec 64) : Option (BitVec w) :=
  match Opc with
  | .LUI => do
      guard (imm.toNat < 2 ^ 20)
      some (sextW (imm.setWidth w <<< 12))
  | .ADDI => do
      guard (isInt 12 imm = true)
      some (rs1 + imm.setWidth w)
  | .ADDIW => do
      guard (w = 64 ∧ isInt 12 imm = true)
      some (sextW (rs1 + imm.setWidth w))
  | .XORI => do
      guard (isInt 12 imm = true)
      some (rs1 ^^^ imm.setWidth w)
  | .SLLI => do
      guard (imm.toNat < w)
      some (rs1 <<< imm.toNat)
  | .SRLI => do
      guard (imm.toNat < w)
      some (rs1 >>> imm.toNat)
  | .SLLI_UW => do
      guard (w = 64 ∧ imm.toNat < w)
      some (zextW rs1 <<< imm.toNat)
  | .ADD => some (rs1 + rs2)
  | .ADD_UW => do
      guard (w = 64)
      some (zextW rs1 + rs2)
  | .SH1ADD => some (rs1 <<< 1 + rs2)
  | .SH2ADD => some (rs1 <<< 2 + rs2)
  | .SH3ADD => some (rs1 <<< 3 + rs2)
  | .PACK => some ((rs1.setWidth (w / 2)).setWidth w ||| rs2 <<< (w / 2))
  | .BSETI => do
      guard (imm.toNat < w)
      some (rs1 ||| (1 : BitVec w) <<< imm.toNat)
  | .BCLRI => do
      guard (imm.toNat < w)
      some (rs1 &&& ~~~((1 : BitVec w) <<< imm.toNat))
  | .RORI | .TH_SRRI => do
      guard (imm.toNat < w)
      some (rs1.rotateRight imm.toNat)

def Inst.exec (I : Inst) (rs : BitVec w) : Option (BitVec w) := do
  match ← I.getOpndKind with
  | .Imm => I.Opc.result 0 0 I.Imm
  | .RegX0 => I.Opc.result rs 0 I.Imm
  | .RegReg => I.Opc.result rs rs I.Imm
  | .RegImm => I.Opc.result rs 0 I.Imm

def execAll (Res : InstSeq) (rs : BitVec w) : Option (BitVec w) :=
  Res.foldlM (fun rs I => I.exec rs) rs

def Computes (Res : InstSeq) (v : BitVec w) : Prop := execAll Res (0 : BitVec w) = some v

theorem Computes.nil : Computes [] (0 : BitVec w) := rfl

theorem Computes.snoc {Res : InstSeq} {I : Inst} {v v' : BitVec w} (h : Computes Res v)
    (hexec : I.exec v = some v') : Computes (Res ++ [I]) v' := by
  unfold Computes execAll at h ⊢
  rw [List.foldlM_append, h]
  change (I.exec v).bind (fun rs => some rs) = _
  rw [hexec, Option.bind_some]

def emplace_back (Opc : Opcode) (I : BitVec 64) (Res : InstSeq) : Option InstSeq := do
  guard (isInt 32 I = true)
  some (Res ++ [{ Opc := Opc, Imm := I }])

theorem emplace_back_eq {Opc : Opcode} {I : BitVec 64} (h : isInt 32 I = true) (Res : InstSeq) :
    emplace_back Opc I Res = some (Res ++ [{ Opc := Opc, Imm := I }]) := by
  unfold emplace_back guard
  rw [if_pos h]
  rfl

end SmlnjLlvm.RISCV
