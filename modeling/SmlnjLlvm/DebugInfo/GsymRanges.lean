import SmlnjLlvm.Adt.AddressRanges
import SmlnjLlvm.Support.DataExtractor

/-!
# Address ranges in GSYM data

`encodeRanges`, `decodeRanges` and `skipRanges`. A collection carries that it is
in normal form, as every insertion leaves it.
-/

namespace SmlnjLlvm.Gsym

open LEB128 RangeLists

@[ext] structure AddressRanges where
  Ranges : List AddressRange
  normalised : SmlnjLlvm.AddressRanges.Normalised Ranges

namespace AddressRanges

def empty : AddressRanges := ⟨[], ⟨fun _ h => absurd h List.not_mem_nil, List.Pairwise.nil⟩⟩

def insert (Ranges : AddressRanges) (Range : AddressRange) : AddressRanges where
  Ranges := (SmlnjLlvm.AddressRanges.insert Ranges.Ranges Range).2
  normalised := by
    cases hempty : Range.empty with
    | true =>
      rw [SmlnjLlvm.AddressRanges.insert_empty _ hempty]
      exact Ranges.normalised
    | false => exact (SmlnjLlvm.AddressRanges.insert_spec Ranges.normalised hempty).normalised

def containsAddr (Ranges : AddressRanges) (Addr : Nat) : Bool :=
  SmlnjLlvm.containsAddr id Ranges.Ranges Addr

def contains (Ranges : AddressRanges) (Range : AddressRange) : Bool :=
  containsRange id Ranges.Ranges Range

end AddressRanges

def encodeRange (BaseAddr : Nat) (Range : AddressRange) : Option (List UInt8) :=
  if BaseAddr ≤ Range.Start then
    some (uleb128 (BitVec.ofNat 64 (Range.Start - BaseAddr)) ++ uleb128 (BitVec.ofNat 64 Range.size))
  else none

/-- The loop over the ranges. -/
def encodeEach (BaseAddr : Nat) : List AddressRange → Option (List UInt8)
  | [] => some []
  | Range :: rest => do
      let bytes ← encodeRange BaseAddr Range
      let more ← encodeEach BaseAddr rest
      some (bytes ++ more)

def encodeRanges (Ranges : AddressRanges) (BaseAddr : Nat) : Option (List UInt8) := do
  let bytes ← encodeEach BaseAddr Ranges.Ranges
  some (uleb128 (BitVec.ofNat 64 Ranges.Ranges.length) ++ bytes)

/-- `decodeRange`, and the offset after it. The sums wrap; a range that ends before its start
fails the assertion of its constructor. -/
def decodeRange (d : DataExtractor) (BaseAddr Offset : Nat) : Option (AddressRange × Nat) := do
  let (AddrOffset, C) ← d.getULEB128 (.start Offset)
  let (Size, C) ← d.getULEB128 (.start C.Offset)
  let StartAddr := (BaseAddr + AddrOffset.toNat) % 2 ^ 64
  let EndAddr := (StartAddr + Size.toNat) % 2 ^ 64
  if h : StartAddr ≤ EndAddr then
    some (⟨StartAddr, EndAddr, h, Nat.mod_lt _ (Nat.two_pow_pos 64)⟩, C.Offset)
  else none

/-- The loop that inserts the ranges. -/
def decodeEach (d : DataExtractor) (BaseAddr : Nat) :
    Nat → AddressRanges → Nat → Option (AddressRanges × Nat)
  | 0, Ranges, Offset => some (Ranges, Offset)
  | NumRanges + 1, Ranges, Offset => do
      let (Range, Offset) ← decodeRange d BaseAddr Offset
      decodeEach d BaseAddr NumRanges (Ranges.insert Range) Offset

def decodeRanges (d : DataExtractor) (BaseAddr Offset : Nat) : Option (AddressRanges × Nat) := do
  let (NumRanges, C) ← d.getULEB128 (.start Offset)
  decodeEach d BaseAddr NumRanges.toNat .empty C.Offset

def skipRange (d : DataExtractor) (Offset : Nat) : Option Nat := do
  let (_, C) ← d.getULEB128 (.start Offset)
  let (_, C) ← d.getULEB128 (.start C.Offset)
  some C.Offset

/-- The loop that skips the ranges. -/
def skipEach (d : DataExtractor) : Nat → Nat → Option Nat
  | 0, Offset => some Offset
  | NumRanges + 1, Offset => do
      let Offset ← skipRange d Offset
      skipEach d NumRanges Offset

/-- `skipRanges`: how many there are, and the offset after them. -/
def skipRanges (d : DataExtractor) (Offset : Nat) : Option (Nat × Nat) := do
  let (NumRanges, C) ← d.getULEB128 (.start Offset)
  let Offset ← skipEach d NumRanges.toNat C.Offset
  some (NumRanges.toNat, Offset)

variable {d : DataExtractor} {BaseAddr Offset : Nat} {bytes : List UInt8}

theorem getULEB128_uleb128 {Value : BitVec 64} (h : d.At Offset (uleb128 Value)) :
    d.getULEB128 (.start Offset) = some (Value, .start (Offset + (uleb128 Value).length)) :=
  DataExtractor.getULEB128_at (decodeULEB128_uleb128 Value) h

variable {Range : AddressRange} {Ranges : AddressRanges} {l : List AddressRange}

theorem decodeRange_at (h : encodeRange BaseAddr Range = some bytes) (hat : d.At Offset bytes) :
    decodeRange d BaseAddr Offset = some (Range, Offset + bytes.length) := by
  unfold encodeRange at h
  split at h
  · next hbase =>
    cases h
    have hle := Range.le
    have hlt := Range.lt
    unfold decodeRange
    rw [getULEB128_uleb128 hat.left]
    simp only [Option.bind_eq_bind, Option.bind_some, Cursor.start_Offset]
    rw [getULEB128_uleb128 hat.right]
    have hstart : (BaseAddr + (BitVec.ofNat 64 (Range.Start - BaseAddr)).toNat) % 2 ^ 64 =
        Range.Start := by
      rw [BitVec.toNat_ofNat]
      omega
    have hend : (Range.Start + (BitVec.ofNat 64 Range.size).toNat) % 2 ^ 64 = Range.End := by
      rw [BitVec.toNat_ofNat]
      unfold AddressRange.size
      omega
    simp only [Option.bind_some, hstart, hend, hle, dite_true, Cursor.start_Offset,
      List.length_append, Nat.add_assoc]
  · cases h

theorem skipRange_at (h : encodeRange BaseAddr Range = some bytes) (hat : d.At Offset bytes) :
    skipRange d Offset = some (Offset + bytes.length) := by
  unfold encodeRange at h
  split at h
  · cases h
    unfold skipRange
    rw [getULEB128_uleb128 hat.left]
    simp only [Option.bind_eq_bind, Option.bind_some, Cursor.start_Offset]
    rw [getULEB128_uleb128 hat.right]
    simp only [Option.bind_some, Cursor.start_Offset, List.length_append, Nat.add_assoc]
  · cases h

/-! ## Collections -/

theorem encodeEach_cons (h : encodeEach BaseAddr (Range :: l) = some bytes) :
    ∃ first rest, encodeRange BaseAddr Range = some first ∧ encodeEach BaseAddr l = some rest ∧
      bytes = first ++ rest := by
  simp only [encodeEach, Option.bind_eq_bind, Option.bind_eq_some_iff, Option.some.injEq] at h
  obtain ⟨first, hfirst, rest, hrest, rfl⟩ := h
  exact ⟨first, rest, hfirst, hrest, rfl⟩

theorem decodeEach_at (h : encodeEach BaseAddr l = some bytes) (hat : d.At Offset bytes)
    (Ranges : AddressRanges) :
    decodeEach d BaseAddr l.length Ranges Offset =
      some (l.foldl AddressRanges.insert Ranges, Offset + bytes.length) := by
  induction l generalizing bytes Offset Ranges with
  | nil =>
    cases h
    rfl
  | cons Range l ih =>
    obtain ⟨first, rest, hfirst, hrest, rfl⟩ := encodeEach_cons h
    rw [List.length_cons, decodeEach, decodeRange_at hfirst hat.left]
    simp only [Option.bind_eq_bind, Option.bind_some]
    rw [ih hrest hat.right, List.foldl_cons, List.length_append, Nat.add_assoc]

theorem skipEach_at (h : encodeEach BaseAddr l = some bytes) (hat : d.At Offset bytes) :
    skipEach d l.length Offset = some (Offset + bytes.length) := by
  induction l generalizing bytes Offset with
  | nil =>
    cases h
    rfl
  | cons Range l ih =>
    obtain ⟨first, rest, hfirst, hrest, rfl⟩ := encodeEach_cons h
    rw [List.length_cons, skipEach, skipRange_at hfirst hat.left]
    simp only [Option.bind_eq_bind, Option.bind_some]
    rw [ih hrest hat.right, List.length_append, Nat.add_assoc]

theorem foldl_insert_Ranges (l : List AddressRange) (Ranges : AddressRanges) :
    (l.foldl AddressRanges.insert Ranges).Ranges =
      l.foldl (fun Ranges Range => (SmlnjLlvm.AddressRanges.insert Ranges Range).2) Ranges.Ranges := by
  induction l generalizing Ranges with
  | nil => rfl
  | cons Range l ih => exact ih (Ranges.insert Range)

theorem foldl_insert_self (Ranges : AddressRanges) :
    Ranges.Ranges.foldl AddressRanges.insert .empty = Ranges := by
  obtain ⟨hnormal, hsame⟩ := SmlnjLlvm.AddressRanges.insertAll_spec Ranges.Ranges
  apply AddressRanges.ext
  rw [foldl_insert_Ranges]
  exact SmlnjLlvm.AddressRanges.eq_of_addresses hnormal Ranges.normalised hsame

theorem length_le (h : SmlnjLlvm.AddressRanges.Normalised l) {s : Nat} (hs : ∀ R ∈ l, s ≤ R.Start)
    (hlt : s < 2 ^ 64) : s + l.length < 2 ^ 64 := by
  induction l generalizing s with
  | nil => exact hlt
  | cons Range l ih =>
    have hstart := hs Range List.mem_cons_self
    have hnonempty := h.nonempty Range List.mem_cons_self
    have hend := Range.lt
    have hrest := ih h.of_cons
      (fun R hR => Nat.le_of_lt ((List.pairwise_cons.mp h.apart).1 R hR)) hend
    rw [List.length_cons]
    omega

theorem AddressRanges.length_lt (Ranges : AddressRanges) : Ranges.Ranges.length < 2 ^ 64 := by
  have hlt := length_le Ranges.normalised (fun R _ => Nat.zero_le R.Start) (Nat.two_pow_pos 64)
  rwa [Nat.zero_add] at hlt

theorem encodeRanges_eq_some (h : encodeRanges Ranges BaseAddr = some bytes) :
    ∃ rest, encodeEach BaseAddr Ranges.Ranges = some rest ∧
      bytes = uleb128 (BitVec.ofNat 64 Ranges.Ranges.length) ++ rest := by
  simp only [encodeRanges, Option.bind_eq_bind, Option.bind_eq_some_iff, Option.some.injEq] at h
  obtain ⟨rest, hrest, rfl⟩ := h
  exact ⟨rest, hrest, rfl⟩

theorem toNat_length (Ranges : AddressRanges) :
    (BitVec.ofNat 64 Ranges.Ranges.length).toNat = Ranges.Ranges.length := by
  rw [BitVec.toNat_ofNat, Nat.mod_eq_of_lt Ranges.length_lt]

theorem decodeRanges_at (h : encodeRanges Ranges BaseAddr = some bytes) (hat : d.At Offset bytes) :
    decodeRanges d BaseAddr Offset = some (Ranges, Offset + bytes.length) := by
  obtain ⟨rest, hrest, rfl⟩ := encodeRanges_eq_some h
  unfold decodeRanges
  rw [getULEB128_uleb128 hat.left]
  simp only [Option.bind_eq_bind, Option.bind_some, Cursor.start_Offset]
  rw [toNat_length, decodeEach_at hrest hat.right, foldl_insert_self, List.length_append,
    Nat.add_assoc]

theorem skipRanges_at (h : encodeRanges Ranges BaseAddr = some bytes) (hat : d.At Offset bytes) :
    skipRanges d Offset = some (Ranges.Ranges.length, Offset + bytes.length) := by
  obtain ⟨rest, hrest, rfl⟩ := encodeRanges_eq_some h
  unfold skipRanges
  rw [getULEB128_uleb128 hat.left]
  simp only [Option.bind_eq_bind, Option.bind_some, Cursor.start_Offset]
  rw [toNat_length, skipEach_at hrest hat.right]
  simp only [Option.bind_some, List.length_append, Nat.add_assoc]

theorem encodeRanges_total (h : ∀ R ∈ Ranges.Ranges, BaseAddr ≤ R.Start) :
    ∃ bytes, encodeRanges Ranges BaseAddr = some bytes := by
  have heach : ∀ l : List AddressRange, (∀ R ∈ l, BaseAddr ≤ R.Start) →
      ∃ bytes, encodeEach BaseAddr l = some bytes := by
    intro l hl
    induction l with
    | nil => exact ⟨[], rfl⟩
    | cons Range l ih =>
      obtain ⟨rest, hrest⟩ := ih fun R hR => hl R (List.mem_cons_of_mem _ hR)
      have hbase : BaseAddr ≤ Range.Start := hl Range List.mem_cons_self
      simp [encodeEach, encodeRange, hbase, hrest]
  obtain ⟨rest, hrest⟩ := heach Ranges.Ranges h
  exact ⟨_, by rw [encodeRanges, hrest]; rfl⟩

theorem encodeRanges_ne_nil (h : encodeRanges Ranges BaseAddr = some bytes) : bytes ≠ [] := by
  obtain ⟨rest, -, rfl⟩ := encodeRanges_eq_some h
  exact List.append_ne_nil_of_left_ne_nil (uleb128_ne_nil _) _

theorem AddressRanges.head_le {first : AddressRange} {rest : List AddressRange}
    (h : Ranges.Ranges = first :: rest) : ∀ R ∈ Ranges.Ranges, first.Start ≤ R.Start := by
  have hlt := Ranges.normalised.ascending.lo_lt
  rw [h] at hlt ⊢
  intro R hR
  rcases List.mem_cons.mp hR with rfl | hR
  · exact Nat.le_refl _
  · exact Nat.le_of_lt ((List.pairwise_cons.mp hlt).1 R hR)

end SmlnjLlvm.Gsym
