import SmlnjLlvm.Library.Digits
import Mathlib.Data.Nat.Bitwise

/-!
# Byte strings as strings of bits

Bit `i` of a byte string is bit `i % 8` of byte `i / 8`. A run of bits is read
as a number whose least significant bit is the first one.
-/

namespace SmlnjLlvm.BitString

abbrev Bytes := List UInt8

/-- The byte at an index, zero past the end. -/
def byte (bytes : Bytes) (i : Nat) : Nat := (bytes.getD i 0).toNat

def bit (bytes : Bytes) (i : Nat) : Bool := (byte bytes (i / 8)).testBit (i % 8)

/-- The number of bits of the string. -/
def size (bytes : Bytes) : Nat := 8 * bytes.length

/-- The `n` bits from position `pos` on. -/
def bitsAt (bytes : Bytes) (pos n : Nat) : Nat :=
  Digits.value 2 (fun i => (bit bytes i).toNat) pos n

variable {bytes : Bytes}

theorem bitsAt_zero (pos : Nat) : bitsAt bytes pos 0 = 0 := rfl

theorem bitsAt_lt (pos n : Nat) : bitsAt bytes pos n < 2 ^ n :=
  Digits.value_lt fun i _ => (bit bytes (pos + i)).toNat_lt

theorem bitsAt_add (pos n m : Nat) :
    bitsAt bytes pos (n + m) = bitsAt bytes pos n + 2 ^ n * bitsAt bytes (pos + n) m :=
  Digits.value_add pos n m

theorem bitsAt_mod (pos : Nat) {k n : Nat} (h : k ≤ n) :
    bitsAt bytes pos n % 2 ^ k = bitsAt bytes pos k := by
  obtain ⟨m, rfl⟩ := Nat.exists_eq_add_of_le h
  rw [bitsAt_add, Nat.add_mul_mod_self_left, Nat.mod_eq_of_lt (bitsAt_lt pos k)]

theorem bitsAt_div (pos : Nat) {k n : Nat} (h : k ≤ n) :
    bitsAt bytes pos n / 2 ^ k = bitsAt bytes (pos + k) (n - k) := by
  obtain ⟨m, rfl⟩ := Nat.exists_eq_add_of_le h
  rw [bitsAt_add, Nat.add_mul_div_left _ _ (Nat.two_pow_pos k),
    Nat.div_eq_of_lt (bitsAt_lt pos k), Nat.zero_add, Nat.add_sub_cancel_left]

theorem byte_lt (i : Nat) : byte bytes i < 2 ^ 8 := (bytes.getD i 0).toNat_lt

theorem value_byte (i : Nat) {n : Nat} (hn : n ≤ 8) :
    bitsAt bytes (8 * i) n = byte bytes i % 2 ^ n := by
  induction n with
  | zero => rw [bitsAt_zero, Nat.pow_zero, Nat.mod_one]
  | succ n ih =>
    have hdiv : (8 * i + n) / 8 = i := by omega
    have hmod : (8 * i + n) % 8 = n := by omega
    have hbit : bit bytes (8 * i + n) = (byte bytes i).testBit n := by rw [bit, hdiv, hmod]
    rw [bitsAt, Digits.value_succ, hbit, Nat.mod_pow_succ, ← ih (by omega), bitsAt,
      Nat.toNat_testBit, Nat.mul_comm (2 ^ n)]

theorem bitsAt_byte (i : Nat) : bitsAt bytes (8 * i) 8 = byte bytes i := by
  rw [value_byte i (Nat.le_refl 8), Nat.mod_eq_of_lt (byte_lt i)]

theorem bitsAt_bytes (lo n : Nat) :
    bitsAt bytes (8 * lo) (8 * n) = Digits.value 256 (byte bytes) lo n := by
  induction n with
  | zero => rfl
  | succ n ih =>
    rw [Nat.mul_succ, bitsAt_add, ih, ← Nat.mul_add, bitsAt_byte, Digits.value_succ, Nat.pow_mul,
      Nat.mul_comm (byte bytes (lo + n))]

/-- The `n` bytes from an index on, when the string holds them all. -/
def slice (bytes : Bytes) (lo n : Nat) : Option Bytes :=
  if lo + n ≤ bytes.length then some ((bytes.drop lo).take n) else none

theorem slice_of_le {lo n : Nat} (h : lo + n ≤ bytes.length) :
    slice bytes lo n = some ((bytes.drop lo).take n) := if_pos h

theorem byte_slice {lo n i : Nat} (hi : i < n) :
    byte ((bytes.drop lo).take n) i = byte bytes (lo + i) := by
  simp [byte, List.getD, hi]

end SmlnjLlvm.BitString
