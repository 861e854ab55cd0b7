import SmlnjLlvm.DebugInfo.GsymInlineInfo

/-!
# GSYM inline trees round trip

What `encode` writes is read back by `decode`, is skipped by `skip`, and a lookup
in it finds the locations of the inline stack of the tree.
-/

namespace SmlnjLlvm.Gsym.InlineInfo

open LEB128 Loop

section Fields

variable {d : DataExtractor} {Offset : Nat} {bytes rest : List UInt8} {HasChildren : Bool}
  {Name CallFile CallLine : BitVec 32}

theorem setWidth_setWidth (U : BitVec 32) : (U.setWidth 64).setWidth 32 = U := by simp

theorem length_writeU32 (IsLittleEndian : Bool) (U : BitVec 32) :
    (writeU32 IsLittleEndian U).length = 4 := by
  cases IsLittleEndian <;> rfl

theorem getU32_writeU32 {U : BitVec 32} (h : d.At Offset (writeU32 d.IsLittleEndian U)) :
    d.getU32 (.start Offset) = (U, .start (Offset + 4)) := by
  have hread := DataExtractor.getU_at (show U.toNat < 256 ^ 4 from U.isLt) (by decide) h
  simp [DataExtractor.getU32, hread]

theorem fields_at
    (h : d.At Offset (encodeFields d.IsLittleEndian HasChildren Name CallFile CallLine)) :
    ∃ p q, d.getU8 (.start Offset) = (if HasChildren then 1 else 0, .start (Offset + 1)) ∧
      d.getU32 (.start (Offset + 1)) = (Name, .start p) ∧
      d.getULEB128 (.start p) = some (CallFile.setWidth 64, .start q) ∧
      d.getULEB128 (.start q) = some (CallLine.setWidth 64, .start
        (Offset + (encodeFields d.IsLittleEndian HasChildren Name CallFile CallLine).length)) ∧
      Offset + 1 + 4 = p ∧ Offset < d.Data.length ∧ p < d.Data.length ∧ q < d.Data.length := by
  have hname : d.At (Offset + 1) (writeU32 d.IsLittleEndian Name ++
      (uleb128 (CallFile.setWidth 64) ++ uleb128 (CallLine.setWidth 64))) := h.tail
  have hnumbers := hname.right
  rw [length_writeU32] at hnumbers
  have hfile := hnumbers.left
  have hline := hnumbers.right
  refine ⟨_, _, DataExtractor.getU8_at h, getU32_writeU32 hname.left, getULEB128_uleb128 hfile,
    ?_, rfl, h.lt, hfile.lt_of_ne_nil (uleb128_ne_nil _), hline.lt_of_ne_nil (uleb128_ne_nil _)⟩
  rw [getULEB128_uleb128 hline]
  simp only [encodeFields, List.length_cons, List.length_append, length_writeU32]
  congr 3
  omega

theorem flag_ne_zero (HasChildren : Bool) :
    decide ((if HasChildren then (1 : UInt8) else 0) ≠ 0) = HasChildren := by
  cases HasChildren <;> rfl

theorem readFields_at
    (h : d.At Offset (encodeFields d.IsLittleEndian HasChildren Name CallFile CallLine)) :
    readFields d Offset = some (⟨HasChildren, Name, CallFile, CallLine⟩,
      Offset + (encodeFields d.IsLittleEndian HasChildren Name CallFile CallLine).length) := by
  obtain ⟨p, q, hflag, hname, hfile, hline, -⟩ := fields_at h
  unfold readFields
  simp only [hflag, hname, hfile, hline, Cursor.start_Offset, Option.bind_eq_bind,
    Option.bind_some, setWidth_setWidth, flag_ne_zero]

theorem decodeFields_at
    (h : d.At Offset (encodeFields d.IsLittleEndian HasChildren Name CallFile CallLine)) :
    decodeFields d Offset = some (.ok (⟨HasChildren, Name, CallFile, CallLine⟩,
      Offset + (encodeFields d.IsLittleEndian HasChildren Name CallFile CallLine).length)) := by
  obtain ⟨p, q, hflag, hname, hfile, hline, hp, hlt, hplt, hqlt⟩ := fields_at h
  have hfits : ¬d.Data.length < Offset + 1 + 4 := by omega
  unfold decodeFields
  simp only [hflag, hname, hfile, hline, hfits, Nat.not_le.mpr hlt, Nat.not_le.mpr hplt,
    Nat.not_le.mpr hqlt, if_false, Cursor.start_Offset, Option.bind_eq_bind, Option.bind_some,
    setWidth_setWidth, flag_ne_zero]

theorem length_encodeFields_pos (IsLittleEndian : Bool) :
    0 < (encodeFields IsLittleEndian HasChildren Name CallFile CallLine).length := by
  rw [encodeFields, List.length_cons]
  exact Nat.succ_pos _

end Fields

variable {le : Bool} {BaseAddr ChildBaseAddr Offset : Nat} {bytes : List UInt8}
  {Ranges : AddressRanges}

/-- The bytes after the fields. -/
def Chain (le : Bool) (Ranges : AddressRanges) (ChildBaseAddr : Nat) (Children : List InlineInfo)
    (rest : List UInt8) : Prop :=
  (Children = [] ∧ rest = []) ∨
    (Children ≠ [] ∧ encodeChildren le Ranges ChildBaseAddr Children = some (.ok rest))

theorem encode_eq_ok {II : InlineInfo} (h : encode le II BaseAddr = some (.ok bytes)) :
    ∃ first more ranges rest, II.Ranges.Ranges = first :: more ∧
      encodeRanges II.Ranges BaseAddr = some ranges ∧
      Chain le II.Ranges first.Start II.Children rest ∧
      bytes = ranges ++
        (encodeFields le (!II.Children.isEmpty) II.Name II.CallFile II.CallLine ++ rest) := by
  obtain ⟨Name, CallFile, CallLine, Ranges, Children⟩ := II
  unfold encode at h
  split at h
  · cases h
  · next first more hfirst =>
    simp only [Option.bind_eq_bind, Option.bind_eq_some_iff] at h
    obtain ⟨ranges, hranges, h⟩ := h
    split at h
    · next hempty =>
      cases h
      have hnil := List.isEmpty_iff.mp hempty
      exact ⟨first, more, ranges, [], hfirst, hranges, Or.inl ⟨hnil, rfl⟩, by
        rw [List.append_nil]⟩
    · next hne =>
      obtain ⟨result, hchildren, h⟩ := Option.bind_eq_some_iff.mp h
      cases result with
      | error Err => cases h
      | ok rest =>
        cases h
        exact ⟨first, more, ranges, rest, hfirst, hranges,
          Or.inr ⟨fun hnil => hne (List.isEmpty_iff.mpr hnil), hchildren⟩, rfl⟩

theorem encodeChildren_cons {Child : InlineInfo} {cs : List InlineInfo}
    (h : encodeChildren le Ranges ChildBaseAddr (Child :: cs) = some (.ok bytes)) :
    ∃ first more, encode le Child ChildBaseAddr = some (.ok first) ∧
      encodeChildren le Ranges ChildBaseAddr cs = some (.ok more) ∧ bytes = first ++ more := by
  unfold encodeChildren at h
  split at h
  · simp only [Option.bind_eq_bind, Option.bind_eq_some_iff] at h
    obtain ⟨result, hfirst, h⟩ := h
    cases result with
    | error Err => cases h
    | ok first =>
      simp only [Option.bind_eq_some_iff] at h
      obtain ⟨result', hmore, h⟩ := h
      cases result' with
      | error Err => cases h
      | ok more =>
        cases h
        exact ⟨first, more, hfirst, hmore, rfl⟩
  · cases h

theorem encode_valid {II : InlineInfo} (h : encode le II BaseAddr = some (.ok bytes)) :
    II.isValid = true ∧ 0 < bytes.length := by
  obtain ⟨first, more, ranges, rest, hfirst, hranges, -, rfl⟩ := encode_eq_ok h
  refine ⟨by simp [isValid, hfirst], ?_⟩
  have hpos := List.length_pos_of_ne_nil (encodeRanges_ne_nil hranges)
  rw [List.length_append]
  omega

theorem encodeChildren_length_pos {cs : List InlineInfo}
    (h : encodeChildren le Ranges ChildBaseAddr cs = some (.ok bytes)) : 0 < bytes.length := by
  cases cs with
  | nil =>
    cases h
    exact List.length_pos_of_ne_nil (uleb128_ne_nil 0)
  | cons Child cs =>
    obtain ⟨first, more, hfirst, -, rfl⟩ := encodeChildren_cons h
    have hpos := (encode_valid hfirst).2
    rw [List.length_append]
    omega

variable {d : DataExtractor}

theorem decodeRanges_zero (h : d.At Offset (uleb128 0)) :
    decodeRanges d BaseAddr Offset = some (.empty, Offset + (uleb128 0).length) := by
  unfold decodeRanges
  rw [getULEB128_uleb128 h]
  rfl

theorem decodeAt_zero (h : d.At Offset (uleb128 0)) (turns : Nat) :
    decodeAt d (turns + 1) BaseAddr Offset =
      some (.ok (⟨0, 0, 0, .empty, []⟩, Offset + (uleb128 0).length)) := by
  have hlt := h.lt_of_ne_nil (uleb128_ne_nil 0)
  rw [decodeAt, if_neg (Nat.not_le.mpr hlt), decodeRanges_zero h]
  rfl

mutual

theorem decodeAt_encode : ∀ (II : InlineInfo) {BaseAddr Offset turns : Nat} {bytes : List UInt8},
    encode d.IsLittleEndian II BaseAddr = some (.ok bytes) → d.At Offset bytes →
    bytes.length ≤ turns →
    decodeAt d turns BaseAddr Offset = some (.ok (II, Offset + bytes.length))
  | ⟨Name, CallFile, CallLine, Ranges, Children⟩, BaseAddr, Offset, turns, bytes, h, hat, hturns => by
      obtain ⟨first, more, ranges, rest, hfirst, hranges, hchain, rfl⟩ := encode_eq_ok h
      have hpos := List.length_pos_of_ne_nil (encodeRanges_ne_nil hranges)
      have hlt := hat.lt_of_ne_nil
        (List.append_ne_nil_of_left_ne_nil (encodeRanges_ne_nil hranges) _)
      rw [List.length_append, List.length_append] at hturns
      obtain ⟨turns, rfl⟩ : ∃ n, turns = n + 1 := ⟨turns - 1, by omega⟩
      rw [decodeAt, if_neg (Nat.not_le.mpr hlt), decodeRanges_at hranges hat.left]
      simp only [Option.bind_eq_bind, Option.bind_some]
      rw [hfirst]
      simp only
      rw [decodeFields_at hat.right.left]
      simp only [Option.bind_some, List.length_append, ← Nat.add_assoc]
      rcases hchain with ⟨rfl, rfl⟩ | ⟨hne, hchildren⟩
      · simp
      · have hflag : (!Children.isEmpty) = true := by
          cases Children with
          | nil => exact absurd rfl hne
          | cons Child cs => rfl
        have hloop := decodeChildren_encode Children [] hchildren hat.right.right
          (show rest.length ≤ turns by omega) (show rest.length ≤ turns by omega)
        rw [hflag] at hloop ⊢
        rw [if_pos rfl, hloop]
        simp [Except.map, Nat.add_assoc]

theorem decodeChildren_encode : ∀ (cs : List InlineInfo) {Ranges : AddressRanges}
    {ChildBaseAddr Offset turns fuel : Nat} {bytes : List UInt8} (acc : List InlineInfo),
    encodeChildren d.IsLittleEndian Ranges ChildBaseAddr cs = some (.ok bytes) →
    d.At Offset bytes → bytes.length ≤ turns → bytes.length ≤ fuel →
    loop (childTurn (decodeAt d fuel ChildBaseAddr)) turns ⟨acc, Offset⟩ =
      some (.ok ⟨acc ++ cs, Offset + bytes.length⟩)
  | [], Ranges, ChildBaseAddr, Offset, turns, fuel, bytes, acc, h, hat, hturns, hfuel => by
      have hpos := encodeChildren_length_pos h
      obtain ⟨turns, rfl⟩ : ∃ n, turns = n + 1 := ⟨turns - 1, by omega⟩
      obtain ⟨fuel, rfl⟩ : ∃ n, fuel = n + 1 := ⟨fuel - 1, by omega⟩
      cases h
      apply loop_exit
      simp [childTurn, decodeAt_zero hat, isValid, AddressRanges.empty]
  | Child :: cs, Ranges, ChildBaseAddr, Offset, turns, fuel, bytes, acc, h, hat, hturns, hfuel => by
      obtain ⟨first, more, hfirst, hmore, rfl⟩ := encodeChildren_cons h
      obtain ⟨hvalid, hpos⟩ := encode_valid hfirst
      rw [List.length_append] at hturns hfuel
      obtain ⟨turns, rfl⟩ : ∃ n, turns = n + 1 := ⟨turns - 1, by omega⟩
      have hread := decodeAt_encode Child hfirst hat.left (show first.length ≤ fuel by omega)
      have hturn : childTurn (decodeAt d fuel ChildBaseAddr) ⟨acc, Offset⟩ =
          some (.next ⟨acc ++ [Child], Offset + first.length⟩) := by
        simp [childTurn, hread, hvalid]
      rw [loop_next hturn, decodeChildren_encode cs (acc ++ [Child]) hmore hat.right (by omega)
        (by omega)]
      simp [Nat.add_assoc]

end

theorem skip_false {ranges : List UInt8} (hne : Ranges.Ranges ≠ [])
    (h : encodeRanges Ranges BaseAddr = some ranges) (hat : d.At Offset ranges) (turns : Nat) :
    skip d (turns + 1) Offset false = skip d (turns + 1) (Offset + ranges.length) true := by
  have hlen : Ranges.Ranges.length ≠ 0 := fun hzero => hne (List.eq_nil_of_length_eq_zero hzero)
  simp only [skip, skipRanges_at h hat, if_true, Bool.false_eq_true, if_false,
    Option.bind_eq_bind, Option.bind_some, decide_eq_true hlen]

theorem skip_zero (h : d.At Offset (uleb128 0)) (turns : Nat) :
    skip d (turns + 1) Offset false = some (false, Offset + (uleb128 0).length) := by
  have hranges : skipRanges d Offset = some (0, Offset + (uleb128 0).length) := by
    unfold skipRanges
    rw [getULEB128_uleb128 h]
    rfl
  simp [skip, hranges]

mutual

theorem skip_fields : ∀ (II : InlineInfo) {ChildBaseAddr Offset turns : Nat} {rest : List UInt8},
    Chain d.IsLittleEndian II.Ranges ChildBaseAddr II.Children rest →
    d.At Offset (encodeFields d.IsLittleEndian (!II.Children.isEmpty) II.Name II.CallFile
      II.CallLine ++ rest) → rest.length < turns →
    skip d turns Offset true = some (true, Offset + (encodeFields d.IsLittleEndian
      (!II.Children.isEmpty) II.Name II.CallFile II.CallLine).length + rest.length)
  | ⟨Name, CallFile, CallLine, Ranges, Children⟩, ChildBaseAddr, Offset, turns, rest, hchain, hat,
      hturns => by
      obtain ⟨turns, rfl⟩ : ∃ n, turns = n + 1 := ⟨turns - 1, by omega⟩
      simp only [skip, if_true, Option.bind_eq_bind, Option.bind_some, readFields_at hat.left]
      rcases hchain with ⟨hnil, rfl⟩ | ⟨hne, hchildren⟩
      · cases hnil
        rfl
      · have hflag : (!Children.isEmpty) = true := by
          cases Children with
          | nil => exact absurd rfl hne
          | cons Child cs => rfl
        have hrest := hat.right
        have hloop := skipChildren_encode Children hchildren hrest
          (show rest.length ≤ turns by omega) (show rest.length ≤ turns by omega)
        simp only at hloop
        rw [hflag] at hloop ⊢
        rw [if_pos rfl, hloop]
        rfl

theorem skipChildren_encode : ∀ (cs : List InlineInfo) {Ranges : AddressRanges}
    {ChildBaseAddr Offset turns fuel : Nat} {bytes : List UInt8},
    encodeChildren d.IsLittleEndian Ranges ChildBaseAddr cs = some (.ok bytes) →
    d.At Offset bytes → bytes.length ≤ turns → bytes.length ≤ fuel →
    loop (skipTurn fun Offset => skip d fuel Offset false) turns Offset =
      some (Offset + bytes.length)
  | [], Ranges, ChildBaseAddr, Offset, turns, fuel, bytes, h, hat, hturns, hfuel => by
      have hpos := encodeChildren_length_pos h
      obtain ⟨turns, rfl⟩ : ∃ n, turns = n + 1 := ⟨turns - 1, by omega⟩
      obtain ⟨fuel, rfl⟩ : ∃ n, fuel = n + 1 := ⟨fuel - 1, by omega⟩
      cases h
      apply loop_exit
      simp [skipTurn, skip_zero hat]
  | Child :: cs, Ranges, ChildBaseAddr, Offset, turns, fuel, bytes, h, hat, hturns, hfuel => by
      obtain ⟨first, more, hfirst, hmore, rfl⟩ := encodeChildren_cons h
      obtain ⟨-, hpos⟩ := encode_valid hfirst
      rw [List.length_append] at hturns hfuel
      obtain ⟨turns, rfl⟩ : ∃ n, turns = n + 1 := ⟨turns - 1, by omega⟩
      obtain ⟨fuel, rfl⟩ : ∃ n, fuel = n + 1 := ⟨fuel - 1, by omega⟩
      obtain ⟨R, l, ranges, rest, hR, hranges, hchain, rfl⟩ := encode_eq_ok hfirst
      rw [List.length_append, List.length_append] at hturns hfuel
      have hrpos := List.length_pos_of_ne_nil (encodeRanges_ne_nil hranges)
      have hread := skip_false (by rw [hR]; exact List.cons_ne_nil R l) hranges hat.left.left fuel
      rw [skip_fields Child hchain hat.left.right (by omega)] at hread
      have hturn : skipTurn (fun Offset => skip d (fuel + 1) Offset false) Offset =
          some (.next (Offset + (ranges ++ (encodeFields d.IsLittleEndian
            (!Child.Children.isEmpty) Child.Name Child.CallFile Child.CallLine ++ rest)).length)) := by
        simp [skipTurn, hread, Nat.add_assoc]
      rw [loop_next hturn, skipChildren_encode cs hmore hat.right (by omega) (by omega)]
      simp [Nat.add_assoc]

end

theorem skip_encode {II : InlineInfo} {turns : Nat}
    (h : encode d.IsLittleEndian II BaseAddr = some (.ok bytes)) (hat : d.At Offset bytes)
    (hturns : bytes.length ≤ turns) :
    skip d turns Offset false = some (true, Offset + bytes.length) := by
  obtain ⟨R, l, ranges, rest, hR, hranges, hchain, rfl⟩ := encode_eq_ok h
  rw [List.length_append, List.length_append] at hturns
  have hrpos := List.length_pos_of_ne_nil (encodeRanges_ne_nil hranges)
  obtain ⟨turns, rfl⟩ : ∃ n, turns = n + 1 := ⟨turns - 1, by omega⟩
  rw [skip_false (by rw [hR]; exact List.cons_ne_nil R l) hranges hat.left,
    skip_fields II hchain hat.right (by omega)]
  simp [Nat.add_assoc]

end SmlnjLlvm.Gsym.InlineInfo
