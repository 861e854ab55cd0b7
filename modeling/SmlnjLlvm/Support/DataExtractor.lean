import SmlnjLlvm.Support.LEB128Decode

/-!
# The data extractor

Reads through a cursor. A read that fails marks the cursor, yields zero and
leaves the offset; every later read through that cursor does the same. The
texts of the errors are not kept.
-/

namespace SmlnjLlvm

/-- The offset, and whether no read has failed. -/
structure Cursor where
  Offset : Nat
  ok : Bool
  deriving DecidableEq, Repr

namespace Cursor

def start (Offset : Nat) : Cursor := ⟨Offset, true⟩

def fail (C : Cursor) : Cursor := { C with ok := false }

def skip (C : Cursor) (n : Nat) : Cursor := { C with Offset := C.Offset + n }

@[simp] theorem start_ok (Offset : Nat) : (start Offset).ok = true := rfl

@[simp] theorem start_Offset (Offset : Nat) : (start Offset).Offset = Offset := rfl

@[simp] theorem skip_start (Offset n : Nat) : (start Offset).skip n = start (Offset + n) := rfl

end Cursor

structure DataExtractor where
  Data : List UInt8
  IsLittleEndian : Bool

namespace DataExtractor

def littleEndian : List UInt8 → Nat
  | [] => 0
  | b :: rest => b.toNat + 256 * littleEndian rest

def prepareRead (d : DataExtractor) (Offset Size : Nat) : Option (List UInt8) :=
  if Offset + Size ≤ d.Data.length then some ((d.Data.drop Offset).take Size) else none

def getU (d : DataExtractor) (Size : Nat) (C : Cursor) : Nat × Cursor :=
  if C.ok then
    match d.prepareRead C.Offset Size with
    | some val => (littleEndian (if d.IsLittleEndian then val else val.reverse), C.skip Size)
    | none => (0, C.fail)
  else (0, C)

def getU8 (d : DataExtractor) (C : Cursor) : UInt8 × Cursor :=
  let (val, C) := d.getU 1 C
  (UInt8.ofNat val, C)

def getU32 (d : DataExtractor) (C : Cursor) : BitVec 32 × Cursor :=
  let (val, C) := d.getU 4 C
  (BitVec.ofNat 32 val, C)

def getULEB128 (d : DataExtractor) (C : Cursor) : Option (BitVec 64 × Cursor) :=
  if C.ok then do
    let r ← LEB128.decodeULEB128 true (d.Data.drop C.Offset)
    return if r.error.isSome then (0, C.fail) else (r.value, C.skip r.n)
  else some (0, C)

def getSLEB128 (d : DataExtractor) (C : Cursor) : Option (BitVec 64 × Cursor) :=
  if C.ok then do
    let r ← LEB128.decodeSLEB128 true (d.Data.drop C.Offset)
    return if r.error.isSome then (0, C.fail) else (r.value, C.skip r.n)
  else some (0, C)

def getCStr (d : DataExtractor) (C : Cursor) : List UInt8 × Cursor :=
  if C.ok then
    let bytes := d.Data.drop C.Offset
    if 0 ∈ bytes then
      let str := bytes.takeWhile (· ≠ 0)
      (str, C.skip (str.length + 1))
    else ([], C.fail)
  else ([], C)

def skip (d : DataExtractor) (C : Cursor) (Length : Nat) : Cursor :=
  if C.ok then
    if C.Offset + Length ≤ d.Data.length then C.skip Length else C.fail
  else C

/-! ## What the reads find -/

def At (d : DataExtractor) (Offset : Nat) (bytes : List UInt8) : Prop :=
  ∃ tail, d.Data.drop Offset = bytes ++ tail

variable {d : DataExtractor} {Offset : Nat} {bytes rest : List UInt8}

theorem At.left (h : d.At Offset (bytes ++ rest)) : d.At Offset bytes := by
  obtain ⟨tail, h⟩ := h
  exact ⟨rest ++ tail, by rw [h, List.append_assoc]⟩

theorem At.right (h : d.At Offset (bytes ++ rest)) : d.At (Offset + bytes.length) rest := by
  obtain ⟨tail, h⟩ := h
  refine ⟨tail, ?_⟩
  rw [← List.drop_drop, h, List.append_assoc, List.drop_left]

theorem At.head {b : UInt8} (h : d.At Offset (b :: rest)) : d.At Offset [b] :=
  At.left (show d.At Offset ([b] ++ rest) from h)

theorem At.tail {b : UInt8} (h : d.At Offset (b :: rest)) : d.At (Offset + 1) rest :=
  At.right (show d.At Offset ([b] ++ rest) from h)

theorem At.lt {b : UInt8} (h : d.At Offset (b :: rest)) : Offset < d.Data.length := by
  obtain ⟨tail, h⟩ := h
  have hlen := congrArg List.length h
  simp only [List.length_drop, List.cons_append, List.length_cons] at hlen
  omega

theorem At.length_le (h : d.At Offset bytes) : bytes.length ≤ d.Data.length := by
  obtain ⟨tail, h⟩ := h
  have hlen := congrArg List.length h
  simp only [List.length_drop, List.length_append] at hlen
  omega

theorem At.add_length_le (h : d.At Offset bytes) (hne : bytes ≠ []) :
    Offset + bytes.length ≤ d.Data.length := by
  obtain ⟨tail, h⟩ := h
  have hlen := congrArg List.length h
  have hpos := List.length_pos_of_ne_nil hne
  simp only [List.length_drop, List.length_append] at hlen
  omega

theorem At.lt_of_ne_nil (h : d.At Offset bytes) (hne : bytes ≠ []) : Offset < d.Data.length := by
  obtain ⟨b, rest, rfl⟩ := List.exists_cons_of_ne_nil hne
  exact h.lt

theorem getU8_at {b : UInt8} (h : d.At Offset (b :: rest)) :
    d.getU8 (.start Offset) = (b, .start (Offset + 1)) := by
  have hlt := h.lt
  obtain ⟨tail, h⟩ := h
  simp [getU8, getU, prepareRead, Nat.succ_le_of_lt hlt, h, littleEndian]

def bytesOf (val : Nat) : Nat → List UInt8
  | 0 => []
  | Size + 1 => UInt8.ofNat val :: bytesOf (val / 256) Size

theorem length_bytesOf (val Size : Nat) : (bytesOf val Size).length = Size := by
  induction Size generalizing val with
  | zero => rfl
  | succ Size ih => rw [bytesOf, List.length_cons, ih]

theorem littleEndian_bytesOf {val Size : Nat} (h : val < 256 ^ Size) :
    littleEndian (bytesOf val Size) = val := by
  induction Size generalizing val with
  | zero => exact (Nat.lt_one_iff.mp h).symm
  | succ Size ih =>
    have hrest : val / 256 < 256 ^ Size := by
      rw [Nat.div_lt_iff_lt_mul (by decide), ← Nat.pow_succ]
      exact h
    rw [bytesOf, littleEndian, ih hrest, UInt8.toNat_ofNat']
    exact Nat.mod_add_div val 256

theorem getU_at {val Size : Nat} (hval : val < 256 ^ Size) (hSize : 0 < Size)
    (h : d.At Offset (if d.IsLittleEndian then bytesOf val Size else (bytesOf val Size).reverse)) :
    d.getU Size (.start Offset) = (val, .start (Offset + Size)) := by
  obtain ⟨bytes, hbytes⟩ :
      ∃ b, b = if d.IsLittleEndian then bytesOf val Size else (bytesOf val Size).reverse := ⟨_, rfl⟩
  rw [← hbytes] at h
  have hlen : bytes.length = Size := by
    rw [hbytes]
    split
    · exact length_bytesOf val Size
    · rw [List.length_reverse, length_bytesOf]
  have hread : littleEndian (if d.IsLittleEndian then bytes else bytes.reverse) = val := by
    rw [hbytes]
    cases d.IsLittleEndian with
    | true => exact littleEndian_bytesOf hval
    | false =>
      rw [if_neg Bool.false_ne_true, if_neg Bool.false_ne_true, List.reverse_reverse]
      exact littleEndian_bytesOf hval
  have hfits := h.add_length_le (List.ne_nil_of_length_pos (hlen ▸ hSize))
  obtain ⟨tail, htail⟩ := h
  rw [hlen] at hfits
  have htake : (d.Data.drop Offset).take Size = bytes := by
    rw [htail, ← hlen, List.take_left]
  unfold getU prepareRead
  rw [if_pos (Cursor.start_ok Offset), Cursor.start_Offset, if_pos hfits]
  simp only [htake, hread, Cursor.skip_start]

theorem getULEB128_at {Value : BitVec 64} {num : List UInt8}
    (hnum : ∀ hasEnd tail, LEB128.decodeULEB128 hasEnd (num ++ tail) =
      some ⟨Value, num.length, none⟩)
    (h : d.At Offset num) :
    d.getULEB128 (.start Offset) = some (Value, .start (Offset + num.length)) := by
  obtain ⟨tail, h⟩ := h
  simp [getULEB128, h, hnum]

theorem getSLEB128_at {Value : BitVec 64} {num : List UInt8}
    (hnum : ∀ hasEnd tail, LEB128.decodeSLEB128 hasEnd (num ++ tail) =
      some ⟨Value, num.length, none⟩)
    (h : d.At Offset num) :
    d.getSLEB128 (.start Offset) = some (Value, .start (Offset + num.length)) := by
  obtain ⟨tail, h⟩ := h
  simp [getSLEB128, h, hnum]

end DataExtractor

end SmlnjLlvm
