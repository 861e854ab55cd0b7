import Mathlib.Data.BitVec
import Mathlib.Tactic.Common

/-!
# Memory of bytes

A memory assigns a byte to every address. Numbers are stored with the low byte
first; a store is read back, and other addresses are as before.
-/

namespace SmlnjLlvm.ByteMemory

abbrev Memory (w : Nat) := BitVec w → BitVec 8

variable {w : Nat}

def read (M : Memory w) (a : BitVec w) : Nat → Nat
  | 0 => 0
  | n + 1 => (M a).toNat + 256 * read M (a + 1) n

/-- Each address is told by its distance from the first one. -/
def write (M : Memory w) (a : BitVec w) (n v : Nat) : Memory w := fun x =>
  if (x - a).toNat < n then BitVec.ofNat 8 (v / 256 ^ (x - a).toNat) else M x

theorem write_of_ge {M : Memory w} {a x : BitVec w} {n : Nat} (v : Nat)
    (h : n ≤ (x - a).toNat) : write M a n v x = M x := if_neg (Nat.not_lt.mpr h)

theorem read_of_bytes {M : Memory w} {a : BitVec w} {n v : Nat}
    (h : ∀ i < n, (M (a + BitVec.ofNat w i)).toNat = v / 256 ^ i % 256) :
    read M a n = v % 256 ^ n := by
  induction n generalizing a v with
  | zero => rw [Nat.pow_zero, Nat.mod_one, read]
  | succ n ih =>
    have hfirst := h 0 (Nat.succ_pos n)
    rw [BitVec.add_zero, Nat.pow_zero, Nat.div_one] at hfirst
    have hrest : read M (a + 1) n = v / 256 % 256 ^ n := by
      refine ih fun i hi => ?_
      have hbyte := h (i + 1) (Nat.succ_lt_succ hi)
      have haddr : a + BitVec.ofNat w (i + 1) = a + 1 + BitVec.ofNat w i := by
        rw [BitVec.ofNat_add, BitVec.add_assoc, BitVec.add_comm 1]
        rfl
      rw [haddr, Nat.pow_succ', ← Nat.div_div_eq_div_mul] at hbyte
      exact hbyte
    rw [read, hfirst, hrest, Nat.pow_succ', Nat.mod_mul]

theorem read_write (M : Memory w) (a : BitVec w) {n : Nat} (hn : n ≤ 2 ^ w) (v : Nat) :
    read (write M a n v) a n = v % 256 ^ n := by
  refine read_of_bytes fun i hi => ?_
  have hdist : (a + BitVec.ofNat w i - a).toNat = i := by
    rw [BitVec.add_comm, BitVec.add_sub_cancel, BitVec.toNat_ofNat, Nat.mod_eq_of_lt (by omega)]
  rw [write, hdist, if_pos hi, BitVec.toNat_ofNat]

end SmlnjLlvm.ByteMemory
