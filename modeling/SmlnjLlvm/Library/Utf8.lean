import Mathlib.Data.List.Basic

/-!
# UTF-8

Byte strings that encode characters: they are closed under concatenation, they
encode one list of characters, and an ASCII byte is a character of its own.
-/

namespace SmlnjLlvm.Utf8

/-- The encoding of a list of characters. -/
def encode (cs : List Char) : List UInt8 := cs.flatMap String.utf8EncodeChar

theorem encode_cons (c : Char) (cs : List Char) :
    encode (c :: cs) = String.utf8EncodeChar c ++ encode cs := List.flatMap_cons

theorem encode_injective {cs ds : List Char} (h : encode cs = encode ds) : cs = ds := by
  have hbytes : cs.utf8Encode = ds.utf8Encode := congrArg List.toByteArray h
  apply String.ofList_injective
  apply String.toByteArray_inj.mp
  rw [String.toByteArray_ofList, String.toByteArray_ofList, hbytes]

def Valid (s : List UInt8) : Prop := ∃ cs : List Char, s = encode cs

theorem encode_cases (c : Char) :
    (∃ a : UInt8, String.utf8EncodeChar c = [a] ∧ a.toNat = c.val.toNat ∧ c.val.toNat < 128) ∨
    (∃ a b : UInt8, String.utf8EncodeChar c = [a, b] ∧ a.toNat = 192 + c.val.toNat / 64 ∧
      b.toNat = 128 + c.val.toNat % 64 ∧ 128 ≤ c.val.toNat ∧ c.val.toNat < 2048) ∨
    (∃ a b d : UInt8, String.utf8EncodeChar c = [a, b, d] ∧ a.toNat = 224 + c.val.toNat / 4096 ∧
      b.toNat = 128 + c.val.toNat / 64 % 64 ∧ d.toNat = 128 + c.val.toNat % 64 ∧
      2048 ≤ c.val.toNat ∧ c.val.toNat < 65536) ∨
    (∃ a b d e : UInt8, String.utf8EncodeChar c = [a, b, d, e] ∧
      a.toNat = 240 + c.val.toNat / 262144 ∧ b.toNat = 128 + c.val.toNat / 4096 % 64 ∧
      d.toNat = 128 + c.val.toNat / 64 % 64 ∧ e.toNat = 128 + c.val.toNat % 64 ∧
      65536 ≤ c.val.toNat ∧ c.val.toNat < 1114112) := by
  have hlt : c.val.toNat < 1114112 := by
    have hvalid := c.valid
    rcases hvalid with h | h
    · exact Nat.lt_trans h (by decide)
    · exact h.2
  unfold String.utf8EncodeChar
  simp only
  split
  · refine Or.inl ⟨_, rfl, ?_, by omega⟩
    rw [UInt8.toNat_ofNat']
    omega
  · split
    · refine Or.inr (Or.inl ⟨_, _, rfl, ?_, ?_, by omega, by omega⟩) <;>
        rw [UInt8.toNat_ofNat'] <;> omega
    · split
      · refine Or.inr (Or.inr (Or.inl ⟨_, _, _, rfl, ?_, ?_, ?_, by omega, by omega⟩)) <;>
          rw [UInt8.toNat_ofNat'] <;> omega
      · refine Or.inr (Or.inr (Or.inr ⟨_, _, _, _, rfl, ?_, ?_, ?_, ?_, by omega, by omega⟩)) <;>
          rw [UInt8.toNat_ofNat'] <;> omega

theorem eq_singleton_of_mem {c : Char} {b : UInt8} (hb : b.toNat < 128)
    (h : b ∈ String.utf8EncodeChar c) : String.utf8EncodeChar c = [b] := by
  rcases encode_cases c with ⟨x, he, -⟩ | ⟨x, y, he, hx, hy, -⟩ | ⟨x, y, z, he, hx, hy, hz, -⟩ |
    ⟨x, y, z, w, he, hx, hy, hz, hw, -⟩
  · rw [he] at h ⊢
    rw [List.mem_singleton.mp h]
  all_goals
    rw [he] at h
    simp only [List.mem_cons, List.not_mem_nil, or_false] at h
  · rcases h with rfl | rfl <;> omega
  · rcases h with rfl | rfl | rfl <;> omega
  · rcases h with rfl | rfl | rfl | rfl <;> omega

end SmlnjLlvm.Utf8
