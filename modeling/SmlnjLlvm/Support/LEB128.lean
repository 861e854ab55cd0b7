import SmlnjLlvm.Library.Base128
import Mathlib.Data.BitVec
import Mathlib.Logic.Function.Basic
import Mathlib.Order.Bounds.Defs

/-!
# LEB128

The encoders to a stream and to a buffer, and the decoders. A decoder that
shifts a 64-bit value by 64 or more has no result, nor has one that reads past
the bytes when it was given no end.
-/

namespace SmlnjLlvm.LEB128

open Base128

/-! ## Encoders -/

def lowByte (Value : BitVec 64) : UInt8 := UInt8.ofBitVec ((Value &&& 0x7f).setWidth 8)

def moreSigned (Value : BitVec 64) (Byte : UInt8) : Bool :=
  !((decide (Value = 0) && decide (Byte &&& 0x40 = 0)) ||
    (decide (Value = -1) && decide (Byte &&& 0x40 ≠ 0)))

def markByte (more : Bool) (Byte : UInt8) : UInt8 := if more then Byte ||| 0x80 else Byte

def signedSize (Value : BitVec 64) : Nat :=
  if Value.msb then (~~~Value).toNat else Value.toNat

theorem sshiftRight_toInt (Value : BitVec 64) : (Value.sshiftRight 7).toInt = Value.toInt / 128 := by
  rw [BitVec.toInt_sshiftRight, Int.shiftRight_eq_div_pow]
  rfl

theorem ushiftRight_toNat (Value : BitVec 64) : (Value >>> 7).toNat = Value.toNat / 128 := by
  rw [BitVec.toNat_ushiftRight, Nat.shiftRight_eq_div_pow]

theorem lowByte_toNat (Value : BitVec 64) : (lowByte Value).toNat = Value.toNat % 128 := by
  have hmask : (Value &&& 0x7f).toNat = Value.toNat % 128 := by
    rw [BitVec.toNat_and]
    exact Nat.and_two_pow_sub_one_eq_mod Value.toNat 7
  unfold lowByte
  rw [UInt8.toNat_ofBitVec, BitVec.toNat_setWidth, hmask]
  omega

theorem toInt_cases (Value : BitVec 64) :
    Value.toNat < 2 ^ 63 ∧ Value.toInt = Value.toNat ∨
      2 ^ 63 ≤ Value.toNat ∧ Value.toInt = Value.toNat - 2 ^ 64 := by
  rw [BitVec.toInt_eq_toNat_cond]
  split
  · omega
  · omega

theorem byte_and_40 (b : UInt8) : b &&& 0x40 = 0 ↔ group b < 64 := by
  have hall : ∀ b : Fin 256, (UInt8.ofNat b.val &&& 0x40 = 0 ↔ b.val % 128 < 64) := by
    decide +kernel
  have hb := hall ⟨b.toNat, b.toNat_lt⟩
  rw [UInt8.ofNat_toNat] at hb
  exact hb

theorem signedSize_eq (Value : BitVec 64) :
    (signedSize Value : Int) = if Value.toInt < 0 then -Value.toInt - 1 else Value.toInt := by
  have hcases := toInt_cases Value
  unfold signedSize
  rw [BitVec.msb_eq_decide, BitVec.toNat_not]
  by_cases hneg : 2 ^ 63 ≤ Value.toNat
  · rw [if_pos (decide_eq_true hneg), if_pos (by omega)]
    omega
  · rw [if_neg (by simpa using hneg), if_neg (by omega)]
    omega

theorem moreSigned_iff (Value : BitVec 64) :
    moreSigned (Value.sshiftRight 7) (lowByte Value) = true ↔ ¬FitsSigned 0 Value.toInt := by
  have hcases := toInt_cases Value
  have hshift := sshiftRight_toInt Value
  have hgroup : group (lowByte Value) = Value.toNat % 128 := by
    unfold group
    rw [lowByte_toNat, Nat.mod_mod]
  have hzero : Value.sshiftRight 7 = 0 ↔ Value.toInt / 128 = 0 := by
    rw [← hshift, ← BitVec.toInt_inj]
    rfl
  have hminus : Value.sshiftRight 7 = -1 ↔ Value.toInt / 128 = -1 := by
    rw [← hshift, ← BitVec.toInt_inj]
    rfl
  unfold moreSigned FitsSigned
  rw [Bool.not_eq_true', ← Bool.not_eq_true, Bool.or_eq_true, Bool.and_eq_true, Bool.and_eq_true,
    decide_eq_true_iff, decide_eq_true_iff, decide_eq_true_iff, decide_eq_true_iff, hzero, hminus,
    Ne, byte_and_40, hgroup, pow_zero]
  omega

theorem signedSize_lt {Value : BitVec 64}
    (h : moreSigned (Value.sshiftRight 7) (lowByte Value) = true) :
    signedSize (Value.sshiftRight 7) < signedSize Value := by
  rw [moreSigned_iff] at h
  unfold FitsSigned at h
  have hsize := signedSize_eq Value
  have hnext := signedSize_eq (Value.sshiftRight 7)
  rw [sshiftRight_toInt] at hnext
  split at hsize <;> split at hnext <;> omega

theorem toNat_shift_lt {Value : BitVec 64} (h : Value >>> 7 ≠ 0) :
    (Value >>> 7).toNat < Value.toNat := by
  have hne : (Value >>> 7).toNat ≠ 0 := fun hzero => h (BitVec.eq_of_toNat_eq hzero)
  rw [ushiftRight_toNat] at hne ⊢
  omega

namespace Stream

def encodeSLEB128Loop (PadTo : BitVec 32) (Value : BitVec 64) (Count : Nat) (OS : List UInt8) :
    BitVec 64 × Nat × List UInt8 :=
  let more := moreSigned (Value.sshiftRight 7) (lowByte Value)
  let Byte := markByte (more || decide (Count + 1 < PadTo.toNat)) (lowByte Value)
  if moreSigned (Value.sshiftRight 7) (lowByte Value) then
    encodeSLEB128Loop PadTo (Value.sshiftRight 7) (Count + 1) (OS ++ [Byte])
  else (Value.sshiftRight 7, Count + 1, OS ++ [Byte])
termination_by signedSize Value
decreasing_by exact signedSize_lt ‹_›

def padLoop (Byte : UInt8) : Nat → List UInt8 → List UInt8
  | 0, OS => OS
  | turns + 1, OS => padLoop Byte turns (OS ++ [Byte])

def encodeSLEB128 (Value : BitVec 64) (OS : List UInt8) (PadTo : BitVec 32) : Nat × List UInt8 :=
  let (Value, Count, OS) := encodeSLEB128Loop PadTo Value 0 OS
  if Count < PadTo.toNat then
    let PadValue : UInt8 := if Value.slt 0 then 0x7f else 0x00
    let OS := padLoop (PadValue ||| 0x80) (PadTo.toNat - 1 - Count) OS
    (PadTo.toNat - 1 + 1, OS ++ [PadValue])
  else (Count, OS)

def encodeULEB128Loop (PadTo : BitVec 32) (Value : BitVec 64) (Count : Nat) (OS : List UInt8) :
    Nat × List UInt8 :=
  let more := decide (Value >>> 7 ≠ 0)
  let Byte := markByte (more || decide (Count + 1 < PadTo.toNat)) (lowByte Value)
  if Value >>> 7 ≠ 0 then encodeULEB128Loop PadTo (Value >>> 7) (Count + 1) (OS ++ [Byte])
  else (Count + 1, OS ++ [Byte])
termination_by Value.toNat
decreasing_by exact toNat_shift_lt ‹_›

def encodeULEB128 (Value : BitVec 64) (OS : List UInt8) (PadTo : BitVec 32) : Nat × List UInt8 :=
  let (Count, OS) := encodeULEB128Loop PadTo Value 0 OS
  if Count < PadTo.toNat then
    let OS := padLoop 0x80 (PadTo.toNat - 1 - Count) OS
    (PadTo.toNat - 1 + 1, OS ++ [0x00])
  else (Count, OS)

end Stream

/-- Memory and the pointer `p` into it. -/
structure Buffer where
  mem : Nat → UInt8
  p : Nat

def Buffer.put (b : Buffer) (Byte : UInt8) : Buffer :=
  ⟨Function.update b.mem b.p Byte, b.p + 1⟩

namespace Buffer

def encodeSLEB128Loop (PadTo : BitVec 32) (Value : BitVec 64) (Count : Nat) (b : Buffer) :
    BitVec 64 × Nat × Buffer :=
  let more := moreSigned (Value.sshiftRight 7) (lowByte Value)
  let Byte := markByte (more || decide (Count + 1 < PadTo.toNat)) (lowByte Value)
  if moreSigned (Value.sshiftRight 7) (lowByte Value) then
    encodeSLEB128Loop PadTo (Value.sshiftRight 7) (Count + 1) (b.put Byte)
  else (Value.sshiftRight 7, Count + 1, b.put Byte)
termination_by signedSize Value
decreasing_by exact signedSize_lt ‹_›

def padLoop (Byte : UInt8) : Nat → Buffer → Buffer
  | 0, b => b
  | turns + 1, b => padLoop Byte turns (b.put Byte)

def encodeSLEB128 (Value : BitVec 64) (start : Buffer) (PadTo : BitVec 32) : Nat × Buffer :=
  let (Value, Count, b) := encodeSLEB128Loop PadTo Value 0 start
  let b :=
    if Count < PadTo.toNat then
      let PadValue : UInt8 := if Value.slt 0 then 0x7f else 0x00
      (padLoop (PadValue ||| 0x80) (PadTo.toNat - 1 - Count) b).put PadValue
    else b
  (b.p - start.p, b)

def encodeULEB128Loop (PadTo : BitVec 32) (Value : BitVec 64) (Count : Nat) (b : Buffer) :
    Nat × Buffer :=
  let more := decide (Value >>> 7 ≠ 0)
  let Byte := markByte (more || decide (Count + 1 < PadTo.toNat)) (lowByte Value)
  if Value >>> 7 ≠ 0 then encodeULEB128Loop PadTo (Value >>> 7) (Count + 1) (b.put Byte)
  else (Count + 1, b.put Byte)
termination_by Value.toNat
decreasing_by exact toNat_shift_lt ‹_›

def encodeULEB128 (Value : BitVec 64) (start : Buffer) (PadTo : BitVec 32) : Nat × Buffer :=
  let (Count, b) := encodeULEB128Loop PadTo Value 0 start
  let b :=
    if Count < PadTo.toNat then
      (padLoop 0x80 (PadTo.toNat - 1 - Count) b).put 0x00
    else b
  (b.p - start.p, b)

end Buffer

/-- The value, the count of bytes read and the message. -/
structure Decoded where
  value : BitVec 64
  n : Nat
  error : Option String
  deriving DecidableEq, Repr

def shl64 (x : BitVec 64) (s : Nat) : Option (BitVec 64) := if s < 64 then some (x <<< s) else none

def slice (b : UInt8) : BitVec 64 := (b &&& 0x7f).toBitVec.setWidth 64

/-- `hasEnd` says whether `end` was passed; reading past the bytes without it is undefined. -/
def decodeULEB128Loop (hasEnd : Bool) (Value : BitVec 64) (Shift n : Nat) :
    List UInt8 → Option Decoded
  | [] => if hasEnd then some ⟨0, n, some "malformed uleb128, extends past end"⟩ else none
  | b :: p => do
      let Slice := slice b
      if 63 ≤ Shift ∧ ((Shift = 63 ∧ (Slice <<< Shift) >>> Shift ≠ Slice) ∨
          (63 < Shift ∧ Slice ≠ 0)) then
        return ⟨0, n, some "uleb128 too big for uint64"⟩
      let Shifted ← shl64 Slice Shift
      if 128 ≤ b.toNat then decodeULEB128Loop hasEnd (Value + Shifted) (Shift + 7) (n + 1) p
      else return ⟨Value + Shifted, n + 1, none⟩

def decodeULEB128 (hasEnd : Bool) (p : List UInt8) : Option Decoded :=
  decodeULEB128Loop hasEnd 0 0 0 p

def decodeSLEB128Loop (hasEnd : Bool) (Value : BitVec 64) (Shift n : Nat) :
    List UInt8 → Option Decoded
  | [] => if hasEnd then some ⟨0, n, some "malformed sleb128, extends past end"⟩ else none
  | b :: p => do
      let Slice := slice b
      if 63 ≤ Shift ∧ ((Shift = 63 ∧ Slice ≠ 0 ∧ Slice ≠ 0x7f) ∨
          (63 < Shift ∧ Slice ≠ if Value.slt 0 then 0x7f else 0x00)) then
        return ⟨0, n, some "sleb128 too big for int64"⟩
      let Shifted ← shl64 Slice Shift
      if 128 ≤ b.toNat then decodeSLEB128Loop hasEnd (Value ||| Shifted) (Shift + 7) (n + 1) p
      else
        -- Sign extend negative numbers if needed.
        let Value := Value ||| Shifted
        let Value :=
          if Shift + 7 < 64 ∧ b &&& 0x40 ≠ 0 then Value ||| BitVec.allOnes 64 <<< (Shift + 7)
          else Value
        return ⟨Value, n + 1, none⟩

def decodeSLEB128 (hasEnd : Bool) (p : List UInt8) : Option Decoded :=
  decodeSLEB128Loop hasEnd 0 0 0 p

end SmlnjLlvm.LEB128
