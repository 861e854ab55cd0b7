import SmlnjLlvm.Library.Words

/-!
# Chunks of 16 bits

A word of 64 bits as four chunks: what is at one place, and the word with one
of them replaced.
-/

namespace SmlnjLlvm.Chunks

/-- The chunk at `i`, as a word. -/
def chunk (x : BitVec 64) (i : Nat) : BitVec 64 := x >>> (i * 16) &&& 0xFFFF

def setChunk (x : BitVec 64) (i : Nat) (c : BitVec 64) : BitVec 64 :=
  x &&& ~~~((0xFFFF : BitVec 64) <<< (i * 16)) ||| c <<< (i * 16)

theorem getLsbD_mask (j : Nat) : (0xFFFF : BitVec 64).getLsbD j = decide (j < 16) := by
  have hmask : (0xFFFF : BitVec 64).toNat = 2 ^ 16 - 1 := rfl
  rw [← BitVec.testBit_toNat, hmask, Nat.testBit_two_pow_sub_one]

theorem getLsbD_chunk (x : BitVec 64) (i j : Nat) :
    (chunk x i).getLsbD j = (decide (j < 16) && x.getLsbD (i * 16 + j)) := by
  unfold chunk
  rw [BitVec.getLsbD_and, BitVec.getLsbD_ushiftRight, getLsbD_mask, Bool.and_comm]

theorem getLsbD_eq_chunk (x : BitVec 64) (k : Nat) :
    x.getLsbD k = (chunk x (k / 16)).getLsbD (k % 16) := by
  rw [getLsbD_chunk, decide_eq_true (Nat.mod_lt k (by decide)), Bool.true_and,
    Nat.div_add_mod']

theorem chunk_toNat (x : BitVec 64) (i : Nat) :
    (chunk x i).toNat = x.toNat / 2 ^ (i * 16) % 2 ^ 16 := by
  have hmask : (0xFFFF : BitVec 64).toNat = 2 ^ 16 - 1 := rfl
  unfold chunk
  rw [BitVec.toNat_and, Words.toNat_shr, hmask,
    Nat.and_two_pow_sub_one_eq_mod]

theorem chunk_lt (x : BitVec 64) (i : Nat) : (chunk x i).toNat < 2 ^ 16 := by
  rw [chunk_toNat]
  exact Nat.mod_lt _ (Nat.two_pow_pos 16)

theorem getLsbD_of_lt {c : BitVec 64} (hc : c.toNat < 2 ^ 16) {j : Nat} (hj : 16 ≤ j) :
    c.getLsbD j = false := by
  rw [← BitVec.testBit_toNat]
  exact Nat.testBit_lt_two_pow (Nat.lt_of_lt_of_le hc (Nat.pow_le_pow_right (by decide) hj))

theorem eq_of_chunks {x y : BitVec 64} (h : ∀ i < 4, chunk x i = chunk y i) : x = y := by
  apply BitVec.eq_of_getLsbD_eq
  intro k hk
  rw [getLsbD_eq_chunk x, getLsbD_eq_chunk y, h (k / 16) (by omega)]

theorem chunk_ext {c d : BitVec 64} (hc : c.toNat < 2 ^ 16) (hd : d.toNat < 2 ^ 16)
    (h : ∀ j < 16, c.getLsbD j = d.getLsbD j) : c = d := by
  apply BitVec.eq_of_getLsbD_eq
  intro k _
  by_cases hk : k < 16
  · exact h k hk
  · rw [getLsbD_of_lt hc (Nat.not_lt.mp hk), getLsbD_of_lt hd (Nat.not_lt.mp hk)]

theorem chunk_setChunk {x c : BitVec 64} {i j : Nat} (hj : j < 4)
    (hc : c.toNat < 2 ^ 16) : chunk (setChunk x i c) j = if j = i then c else chunk x j := by
  apply chunk_ext (chunk_lt _ _)
  · split
    · exact hc
    · exact chunk_lt _ _
  · intro k hk
    rw [getLsbD_chunk, decide_eq_true hk, Bool.true_and]
    unfold setChunk
    rw [BitVec.getLsbD_or, BitVec.getLsbD_and, BitVec.getLsbD_not, BitVec.getLsbD_shiftLeft,
      BitVec.getLsbD_shiftLeft, getLsbD_mask, decide_eq_true (by omega : j * 16 + k < 64)]
    by_cases heq : j = i
    · have hsub : i * 16 + k - i * 16 = k := by omega
      rw [if_pos heq, heq, decide_eq_false (by omega : ¬i * 16 + k < i * 16), hsub,
        decide_eq_true hk]
      simp
    · rw [if_neg heq, getLsbD_chunk, decide_eq_true hk]
      rcases Nat.lt_or_gt_of_ne heq with hlt | hgt
      · rw [decide_eq_true (by omega : j * 16 + k < i * 16)]
        simp
      · rw [decide_eq_false (by omega : ¬j * 16 + k - i * 16 < 16),
          getLsbD_of_lt hc (by omega : 16 ≤ j * 16 + k - i * 16)]
        simp

theorem chunk_zero (i : Nat) : chunk 0 i = 0 := by
  unfold chunk
  simp

theorem shiftLeft_eq_setChunk (c : BitVec 64) (i : Nat) : c <<< (i * 16) = setChunk 0 i c := by
  unfold setChunk
  simp

theorem chunk_not (x : BitVec 64) {i : Nat} (hi : i < 4) :
    chunk (~~~x) i = chunk x i ^^^ 0xFFFF := by
  have hlt : (chunk x i ^^^ 0xFFFF).toNat < 2 ^ 16 := by
    rw [BitVec.toNat_xor]
    exact Nat.xor_lt_two_pow (chunk_lt x i) (by decide)
  apply chunk_ext (chunk_lt _ _) hlt
  intro j hj
  rw [getLsbD_chunk, BitVec.getLsbD_xor, getLsbD_chunk, getLsbD_mask, BitVec.getLsbD_not,
    decide_eq_true hj, decide_eq_true (by omega : i * 16 + j < 64)]
  simp

end SmlnjLlvm.Chunks
