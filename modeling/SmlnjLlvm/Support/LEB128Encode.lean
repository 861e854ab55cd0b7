import SmlnjLlvm.Support.LEB128

/-!
# What the LEB128 encoders emit

The bytes are one number with the value that was given, and no shorter than
the value and the padding require. The encoder to a buffer writes the bytes
that the encoder to a stream emits, and nothing else.
-/

namespace SmlnjLlvm.LEB128

open Base128

theorem group_lowByte (Value : BitVec 64) : group (lowByte Value) = Value.toNat % 128 := by
  unfold group
  rw [lowByte_toNat, Nat.mod_mod]

theorem or_80_toNat (b : UInt8) : (b ||| 0x80).toNat = group b + 128 := by
  have hall : ∀ b : Fin 256, (UInt8.ofNat b.val ||| 0x80).toNat = b.val % 128 + 128 := by
    decide +kernel
  have hb := hall ⟨b.toNat, b.toNat_lt⟩
  rw [UInt8.ofNat_toNat] at hb
  exact hb

theorem group_markByte (more : Bool) (b : UInt8) : group (markByte more b) = group b := by
  cases more with
  | false => rfl
  | true =>
    unfold markByte
    rw [if_pos rfl, group, or_80_toNat]
    have hb := group_lt b
    omega

theorem continues_markByte (more : Bool) (Value : BitVec 64) :
    Continues (markByte more (lowByte Value)) ↔ more = true := by
  have hlow := lowByte_toNat Value
  unfold Continues markByte
  cases more with
  | false =>
    rw [if_neg Bool.false_ne_true, hlow]
    simp only [Bool.false_eq_true, iff_false]
    omega
  | true =>
    rw [if_pos rfl, or_80_toNat]
    simp

theorem exists_lastByte (b : UInt8) : ∃ c, group c = group b ∧ ¬Continues c := by
  have hb := group_lt b
  refine ⟨UInt8.ofNat (group b), ?_, ?_⟩
  · rw [group, UInt8.toNat_ofNat']
    omega
  · rw [Continues, UInt8.toNat_ofNat']
    omega

theorem toInt_eq_group (Value : BitVec 64) :
    Value.toInt = (group (lowByte Value) : Int) + 128 * (Value.sshiftRight 7).toInt := by
  have hcases := toInt_cases Value
  rw [group_lowByte, sshiftRight_toInt]
  omega

theorem toNat_eq_group (Value : BitVec 64) :
    Value.toNat = group (lowByte Value) + 128 * (Value >>> 7).toNat := by
  rw [group_lowByte, ushiftRight_toNat]
  omega

namespace Stream

theorem padLoop_eq (Byte : UInt8) (turns : Nat) (OS : List UInt8) :
    padLoop Byte turns OS = OS ++ List.replicate turns Byte := by
  induction turns generalizing OS with
  | zero => simp [padLoop]
  | succ turns ih => rw [padLoop, ih, List.replicate_succ, List.append_assoc, List.singleton_append]

/-! ## Signed values -/

/-- The value is left at the sign of the last group. -/
def signOf (last : UInt8) : BitVec 64 := if group last < 64 then 0 else -1

theorem signOf_toInt (last : UInt8) : (signOf last).toInt = if group last < 64 then 0 else -1 := by
  unfold signOf
  split
  · rfl
  · rfl

theorem signedGroup_eq (last : UInt8) :
    signedGroup last = (group last : Int) + 128 * (signOf last).toInt := by
  rw [signOf_toInt]
  unfold signedGroup
  split <;> split <;> omega

/--
The bytes emitted for a value by the loop: all but the last continue, and the
last one only before padding.
-/
structure SignedGroups (PadTo : BitVec 32) (Value : Int) (Count : Nat) (init : List UInt8)
    (last : UInt8) : Prop where
  continues : ∀ b ∈ init, Continues b
  padded : Continues last ↔ Count + init.length + 1 < PadTo.toNat
  value : signedValue (init ++ [last]) = Value
  needed : ∀ n < init.length, ¬FitsSigned n Value

theorem encodeSLEB128Loop_spec (PadTo : BitVec 32) (Value : BitVec 64) (Count : Nat) :
    ∃ init last, (∀ OS, encodeSLEB128Loop PadTo Value Count OS =
        (signOf last, Count + init.length + 1, OS ++ init ++ [last])) ∧
      SignedGroups PadTo Value.toInt Count init last := by
  -- The bytes do not depend on the stream, so the induction is for any one.
  have stream : List UInt8 := []
  induction Value, Count, stream using encodeSLEB128Loop.induct PadTo with
  | case1 Value Count stream more Byte hmore ih =>
    obtain ⟨init, last, hrun, hgroups⟩ := ih
    have hbyte : Byte = markByte true (lowByte Value) := by
      simp only [Byte, more, hmore, Bool.true_or]
    refine ⟨Byte :: init, last, ?_, ?_⟩
    · intro OS
      have hstep : encodeSLEB128Loop PadTo Value Count OS =
          encodeSLEB128Loop PadTo (Value.sshiftRight 7) (Count + 1) (OS ++ [Byte]) := by
        rw [encodeSLEB128Loop, if_pos hmore]
      rw [hstep, hrun, List.length_cons]
      simp only [List.append_assoc, List.cons_append, List.nil_append, Prod.mk.injEq, and_true,
        true_and]
      omega
    · constructor
      · intro b hb
        rcases List.mem_cons.mp hb with rfl | hb
        · rw [hbyte, continues_markByte]
        · exact hgroups.continues b hb
      · rw [hgroups.padded, List.length_cons]
        omega
      · rw [List.cons_append, signedValue_cons (by simp), hgroups.value, hbyte, group_markByte]
        exact (toInt_eq_group Value).symm
      · intro n hn
        cases n with
        | zero => exact (moreSigned_iff Value).mp hmore
        | succ n =>
          rw [toInt_eq_group, fitsSigned_succ_iff (group_lt _)]
          exact hgroups.needed n (Nat.lt_of_succ_lt_succ hn)
  | case2 Value Count stream hmore =>
    have hmore' : moreSigned (Value.sshiftRight 7) (lowByte Value) = false :=
      Bool.eq_false_iff.mpr hmore
    have hrun : ∀ OS, encodeSLEB128Loop PadTo Value Count OS = (Value.sshiftRight 7, Count + 1,
        OS ++ [markByte (decide (Count + 1 < PadTo.toNat)) (lowByte Value)]) := by
      intro OS
      rw [encodeSLEB128Loop, if_neg hmore, hmore', Bool.false_or]
    have hpadded := continues_markByte (decide (Count + 1 < PadTo.toNat)) Value
    have hgroup := group_markByte (decide (Count + 1 < PadTo.toNat)) (lowByte Value)
    rw [decide_eq_true_iff] at hpadded
    generalize markByte (decide (Count + 1 < PadTo.toNat)) (lowByte Value) = last
      at hrun hpadded hgroup
    have heq := toInt_eq_group Value
    have hsign : Value.sshiftRight 7 = signOf last := by
      have hfits : FitsSigned 0 Value.toInt := by
        by_contra h
        exact hmore ((moreSigned_iff Value).mpr h)
      have hlt := group_lt (lowByte Value)
      unfold FitsSigned at hfits
      rw [← BitVec.toInt_inj, signOf_toInt, hgroup]
      split <;> omega
    refine ⟨[], last, ?_, ?_⟩
    · intro OS
      rw [hrun, hsign, List.append_nil, List.length_nil, Nat.add_zero]
    · constructor
      · simp
      · rw [hpadded, List.length_nil, Nat.add_zero]
      · rw [List.nil_append, signedValue, signedGroup_eq, ← hsign, hgroup]
        exact heq.symm
      · intro n hn
        exact absurd hn (Nat.not_lt_zero n)

/-- The number that the encoder emits. -/
structure SignedNumber (Value : Int) (PadTo : Nat) (num : List UInt8) : Prop where
  terminated : Terminated num
  value : signedValue num = Value
  length : ∃ m, IsLeast {n | ∃ short, Terminated short ∧ signedValue short = Value ∧
    short.length = n} m ∧ num.length = max PadTo m
  short : num.length ≤ max PadTo 10

theorem SignedGroups.isLeast {PadTo : BitVec 32} {Value : Int} {Count : Nat} {init : List UInt8}
    {last : UInt8} (h : SignedGroups PadTo Value Count init last) :
    IsLeast {n | ∃ short, Terminated short ∧ signedValue short = Value ∧ short.length = n}
      (init.length + 1) := by
  constructor
  · obtain ⟨c, hgroup, hlast⟩ := exists_lastByte last
    refine ⟨init ++ [c], ⟨init, c, rfl, h.continues, hlast⟩, ?_, ?_⟩
    · rw [← h.value, signedValue_append (by simp), signedValue_append (by simp), signedValue,
        signedValue, signedGroup, signedGroup, hgroup]
    · rw [List.length_append, List.length_singleton]
  · rintro n ⟨short, ⟨sinit, slast, rfl, -, -⟩, hvalue, rfl⟩
    have hfits := signedValue_fits sinit slast
    rw [hvalue] at hfits
    have hge : ¬sinit.length < init.length := fun hlt => h.needed _ hlt hfits
    simp only [List.length_append, List.length_cons, List.length_nil]
    omega

theorem encodeSLEB128_spec (Value : BitVec 64) (PadTo : BitVec 32) :
    ∃ num, (∀ OS, encodeSLEB128 Value OS PadTo = (num.length, OS ++ num)) ∧
      SignedNumber Value.toInt PadTo.toNat num := by
  obtain ⟨init, last, hrun, hgroups⟩ := encodeSLEB128Loop_spec PadTo Value 0
  have hleast := hgroups.isLeast
  have hpadded := hgroups.padded
  have hshort : init.length ≤ 9 := by
    by_contra hlong
    apply hgroups.needed 9 (by omega)
    have hcases := toInt_cases Value
    unfold FitsSigned
    omega
  simp only [Nat.zero_add] at hrun hpadded
  unfold encodeSLEB128
  simp only [hrun]
  by_cases hpad : init.length + 1 < PadTo.toNat
  · obtain ⟨pad, hvalue, hgroup, hlast⟩ : ∃ pad : UInt8,
        (if (signOf last).slt 0 then 0x7f else 0x00) = pad ∧
        (group (pad ||| 0x80) : Int) + 128 * (signOf last).toInt = (signOf last).toInt ∧
        signedGroup pad = (signOf last).toInt ∧ ¬Continues pad := by
      unfold signOf
      split
      · exact ⟨0x00, rfl, rfl, rfl, by decide⟩
      · exact ⟨0x7f, rfl, rfl, rfl, by decide⟩
    have hcont : Continues (pad ||| 0x80) := by
      rw [Continues, or_80_toNat]
      exact Nat.le_add_left 128 _
    simp only [if_pos hpad, hvalue, padLoop_eq]
    refine ⟨init ++ last :: (List.replicate (PadTo.toNat - 1 - (init.length + 1)) (pad ||| 0x80) ++
      [pad]), ?_, ?_, ?_, ?_, ?_⟩
    · intro OS
      apply Prod.ext
      · simp only [List.length_append, List.length_cons, List.length_replicate, List.length_nil]
        omega
      · simp only [List.append_assoc, List.cons_append, List.nil_append]
    · apply Terminated.append hgroups.continues
      apply Terminated.cons (hpadded.mpr hpad)
      apply Terminated.append _ (Terminated.singleton hlast.2)
      intro b hb
      rw [List.eq_of_mem_replicate hb]
      exact hcont
    · rw [signedValue_append (by simp), signedValue_cons (by simp),
        signedValue_padding hgroup hlast.1, ← signedGroup_eq, ← hgroups.value,
        signedValue_append (by simp), signedValue]
    · refine ⟨init.length + 1, hleast, ?_⟩
      simp only [List.length_append, List.length_cons, List.length_replicate, List.length_nil]
      omega
    · simp only [List.length_append, List.length_cons, List.length_replicate, List.length_nil]
      omega
  · simp only [if_neg hpad]
    refine ⟨init ++ [last], ?_, ?_, hgroups.value, ⟨init.length + 1, hleast, ?_⟩, ?_⟩
    · intro OS
      rw [List.append_assoc, List.length_append, List.length_singleton]
    · exact ⟨init, last, rfl, hgroups.continues, fun h => hpad (hpadded.mp h)⟩
    · rw [List.length_append, List.length_singleton]
      omega
    · rw [List.length_append, List.length_singleton]
      omega

/-! ## Unsigned values -/

/-- The bytes emitted for an unsigned value by the loop. -/
structure UnsignedGroups (PadTo : BitVec 32) (Value Count : Nat) (init : List UInt8)
    (last : UInt8) : Prop where
  continues : ∀ b ∈ init, Continues b
  padded : Continues last ↔ Count + init.length + 1 < PadTo.toNat
  value : unsignedValue (init ++ [last]) = Value
  needed : ∀ n < init.length, 128 ^ (n + 1) ≤ Value

theorem encodeULEB128Loop_spec (PadTo : BitVec 32) (Value : BitVec 64) (Count : Nat) :
    ∃ init last, (∀ OS, encodeULEB128Loop PadTo Value Count OS =
        (Count + init.length + 1, OS ++ init ++ [last])) ∧
      UnsignedGroups PadTo Value.toNat Count init last := by
  have stream : List UInt8 := []
  induction Value, Count, stream using encodeULEB128Loop.induct PadTo with
  | case1 Value Count stream more Byte hmore ih =>
    obtain ⟨init, last, hrun, hgroups⟩ := ih
    have hbyte : Byte = markByte true (lowByte Value) := by
      simp only [Byte, more, hmore, ne_eq, not_false_eq_true, decide_true, Bool.true_or]
    refine ⟨Byte :: init, last, ?_, ?_⟩
    · intro OS
      have hstep : encodeULEB128Loop PadTo Value Count OS =
          encodeULEB128Loop PadTo (Value >>> 7) (Count + 1) (OS ++ [Byte]) := by
        rw [encodeULEB128Loop, if_pos hmore]
      rw [hstep, hrun, List.length_cons]
      simp only [List.append_assoc, List.cons_append, List.nil_append, Prod.mk.injEq, and_true]
      omega
    · constructor
      · intro b hb
        rcases List.mem_cons.mp hb with rfl | hb
        · rw [hbyte, continues_markByte]
        · exact hgroups.continues b hb
      · rw [hgroups.padded, List.length_cons]
        omega
      · rw [List.cons_append, unsignedValue, hgroups.value, hbyte, group_markByte]
        exact (toNat_eq_group Value).symm
      · intro n hn
        have heq := toNat_eq_group Value
        cases n with
        | zero =>
          have hpos : (Value >>> 7).toNat ≠ 0 := fun hzero => hmore (BitVec.eq_of_toNat_eq hzero)
          omega
        | succ n =>
          have hrest := hgroups.needed n (Nat.lt_of_succ_lt_succ hn)
          rw [Nat.pow_succ]
          omega
  | case2 Value Count stream hmore =>
    have hzero : Value >>> 7 = 0 := not_not.mp hmore
    have hrun : ∀ OS, encodeULEB128Loop PadTo Value Count OS = (Count + 1,
        OS ++ [markByte (decide (Count + 1 < PadTo.toNat)) (lowByte Value)]) := by
      intro OS
      rw [encodeULEB128Loop, if_neg hmore, decide_eq_false hmore, Bool.false_or]
    have hpadded := continues_markByte (decide (Count + 1 < PadTo.toNat)) Value
    have hgroup := group_markByte (decide (Count + 1 < PadTo.toNat)) (lowByte Value)
    rw [decide_eq_true_iff] at hpadded
    generalize markByte (decide (Count + 1 < PadTo.toNat)) (lowByte Value) = last
      at hrun hpadded hgroup
    refine ⟨[], last, ?_, ?_⟩
    · intro OS
      rw [hrun, List.append_nil, List.length_nil, Nat.add_zero]
    · constructor
      · simp
      · rw [hpadded, List.length_nil, Nat.add_zero]
      · have heq := toNat_eq_group Value
        rw [hzero] at heq
        rw [List.nil_append, unsignedValue, unsignedValue, hgroup]
        exact heq.symm
      · intro n hn
        exact absurd hn (Nat.not_lt_zero n)

structure UnsignedNumber (Value PadTo : Nat) (num : List UInt8) : Prop where
  terminated : Terminated num
  value : unsignedValue num = Value
  length : ∃ m, IsLeast {n | ∃ short, Terminated short ∧ unsignedValue short = Value ∧
    short.length = n} m ∧ num.length = max PadTo m
  short : num.length ≤ max PadTo 10

theorem UnsignedGroups.isLeast {PadTo : BitVec 32} {Value Count : Nat} {init : List UInt8}
    {last : UInt8} (h : UnsignedGroups PadTo Value Count init last) :
    IsLeast {n | ∃ short, Terminated short ∧ unsignedValue short = Value ∧ short.length = n}
      (init.length + 1) := by
  constructor
  · obtain ⟨c, hgroup, hlast⟩ := exists_lastByte last
    refine ⟨init ++ [c], ⟨init, c, rfl, h.continues, hlast⟩, ?_, ?_⟩
    · rw [← h.value, unsignedValue_append, unsignedValue_append, unsignedValue, hgroup]
      rfl
    · rw [List.length_append, List.length_singleton]
  · rintro n ⟨short, ⟨sinit, slast, rfl, -, -⟩, hvalue, rfl⟩
    have hbound := unsignedValue_lt (sinit ++ [slast])
    rw [hvalue, List.length_append, List.length_singleton] at hbound
    have hge : ¬sinit.length < init.length := by
      intro hlt
      have hneeded := h.needed _ hlt
      omega
    simp only [List.length_append, List.length_cons, List.length_nil]
    omega

theorem encodeULEB128_spec (Value : BitVec 64) (PadTo : BitVec 32) :
    ∃ num, (∀ OS, encodeULEB128 Value OS PadTo = (num.length, OS ++ num)) ∧
      UnsignedNumber Value.toNat PadTo.toNat num := by
  obtain ⟨init, last, hrun, hgroups⟩ := encodeULEB128Loop_spec PadTo Value 0
  have hleast := hgroups.isLeast
  have hpadded := hgroups.padded
  have hshort : init.length ≤ 9 := by
    by_contra hlong
    have hneeded := hgroups.needed 9 (by omega)
    omega
  simp only [Nat.zero_add] at hrun hpadded
  unfold encodeULEB128
  simp only [hrun]
  by_cases hpad : init.length + 1 < PadTo.toNat
  · simp only [if_pos hpad, padLoop_eq]
    refine ⟨init ++ last :: (List.replicate (PadTo.toNat - 1 - (init.length + 1)) 0x80 ++ [0x00]),
      ?_, ?_, ?_, ?_, ?_⟩
    · intro OS
      apply Prod.ext
      · simp only [List.length_append, List.length_cons, List.length_replicate, List.length_nil]
        omega
      · simp only [List.append_assoc, List.cons_append, List.nil_append]
    · apply Terminated.append hgroups.continues
      apply Terminated.cons (hpadded.mpr hpad)
      apply Terminated.append _ (Terminated.singleton (by decide))
      intro b hb
      rw [List.eq_of_mem_replicate hb]
      decide
    · rw [unsignedValue_append, unsignedValue, unsignedValue_append,
        unsignedValue_padding (by decide), ← hgroups.value, unsignedValue_append, unsignedValue]
      simp [unsignedValue, group]
    · refine ⟨init.length + 1, hleast, ?_⟩
      simp only [List.length_append, List.length_cons, List.length_replicate, List.length_nil]
      omega
    · simp only [List.length_append, List.length_cons, List.length_replicate, List.length_nil]
      omega
  · simp only [if_neg hpad]
    refine ⟨init ++ [last], ?_, ?_, hgroups.value, ⟨init.length + 1, hleast, ?_⟩, ?_⟩
    · intro OS
      rw [List.append_assoc, List.length_append, List.length_singleton]
    · exact ⟨init, last, rfl, hgroups.continues, fun h => hpad (hpadded.mp h)⟩
    · rw [List.length_append, List.length_singleton]
      omega
    · rw [List.length_append, List.length_singleton]
      omega

end Stream

/-! ## The buffer -/

namespace Buffer

/-- From `start` to `b` the bytes were written at the pointer, and no others. -/
structure Wrote (start b : Buffer) (bytes : List UInt8) : Prop where
  pointer : b.p = start.p + bytes.length
  inside : ∀ i (h : i < bytes.length), b.mem (start.p + i) = bytes[i]
  outside : ∀ a, a < start.p ∨ start.p + bytes.length ≤ a → b.mem a = start.mem a

theorem Wrote.refl (start : Buffer) : Wrote start start [] :=
  ⟨rfl, fun _ h => absurd h (Nat.not_lt_zero _), fun _ _ => rfl⟩

theorem Wrote.put {start b : Buffer} {bytes : List UInt8} (h : Wrote start b bytes)
    (Byte : UInt8) : Wrote start (b.put Byte) (bytes ++ [Byte]) := by
  constructor
  · rw [Buffer.put, h.pointer, List.length_append, List.length_singleton, Nat.add_assoc]
  · intro i hi
    rw [List.length_append, List.length_singleton] at hi
    unfold Buffer.put
    by_cases hlast : i = bytes.length
    · subst hlast
      simp [h.pointer]
    · have hlt : i < bytes.length := by omega
      rw [List.getElem_append_left hlt, ← h.inside i hlt]
      apply Function.update_of_ne
      rw [h.pointer]
      omega
  · intro a ha
    rw [List.length_append, List.length_singleton] at ha
    rw [← h.outside a (by omega)]
    apply Function.update_of_ne
    rw [h.pointer]
    omega

theorem Wrote.padLoop {start b : Buffer} {bytes : List UInt8} (h : Wrote start b bytes)
    (Byte : UInt8) (turns : Nat) :
    Wrote start (padLoop Byte turns b) (Stream.padLoop Byte turns bytes) := by
  induction turns generalizing b bytes with
  | zero => exact h
  | succ turns ih => exact ih (h.put Byte)

theorem Wrote.encodeSLEB128Loop {start b : Buffer} {bytes : List UInt8} (h : Wrote start b bytes)
    (PadTo : BitVec 32) (Value : BitVec 64) (Count : Nat) : ∃ Value' Count' bytes' b',
      Stream.encodeSLEB128Loop PadTo Value Count bytes = (Value', Count', bytes') ∧
      encodeSLEB128Loop PadTo Value Count b = (Value', Count', b') ∧ Wrote start b' bytes' := by
  revert bytes
  induction Value, Count, b using encodeSLEB128Loop.induct PadTo with
  | case1 Value Count b more Byte hmore =>
    rename_i ih
    intro bytes h
    obtain ⟨Value', Count', bytes', b', hstream, hbuffer, hwrote⟩ := ih (h.put Byte)
    refine ⟨Value', Count', bytes', b', ?_, ?_, hwrote⟩
    · rw [Stream.encodeSLEB128Loop, if_pos hmore]
      exact hstream
    · rw [Buffer.encodeSLEB128Loop, if_pos hmore]
      exact hbuffer
  | case2 Value Count b hmore =>
    intro bytes h
    refine ⟨Value.sshiftRight 7, Count + 1, _, _, ?_, ?_,
      h.put (markByte (moreSigned (Value.sshiftRight 7) (lowByte Value) ||
        decide (Count + 1 < PadTo.toNat)) (lowByte Value))⟩
    · rw [Stream.encodeSLEB128Loop, if_neg hmore]
    · rw [Buffer.encodeSLEB128Loop, if_neg hmore]

theorem Wrote.encodeULEB128Loop {start b : Buffer} {bytes : List UInt8} (h : Wrote start b bytes)
    (PadTo : BitVec 32) (Value : BitVec 64) (Count : Nat) :
    ∃ Count' bytes' b', Stream.encodeULEB128Loop PadTo Value Count bytes = (Count', bytes') ∧
      encodeULEB128Loop PadTo Value Count b = (Count', b') ∧ Wrote start b' bytes' := by
  revert bytes
  induction Value, Count, b using encodeULEB128Loop.induct PadTo with
  | case1 Value Count b more Byte hmore =>
    rename_i ih
    intro bytes h
    obtain ⟨Count', bytes', b', hstream, hbuffer, hwrote⟩ := ih (h.put Byte)
    refine ⟨Count', bytes', b', ?_, ?_, hwrote⟩
    · rw [Stream.encodeULEB128Loop, if_pos hmore]
      exact hstream
    · rw [Buffer.encodeULEB128Loop, if_pos hmore]
      exact hbuffer
  | case2 Value Count b hmore =>
    intro bytes h
    refine ⟨Count + 1, _, _, ?_, ?_,
      h.put (markByte (decide (Value >>> 7 ≠ 0) || decide (Count + 1 < PadTo.toNat))
        (lowByte Value))⟩
    · rw [Stream.encodeULEB128Loop, if_neg hmore]
    · rw [Buffer.encodeULEB128Loop, if_neg hmore]

theorem encodeSLEB128_spec (Value : BitVec 64) (start : Buffer) (PadTo : BitVec 32)
    {num : List UInt8} (hnum : Stream.encodeSLEB128 Value [] PadTo = (num.length, num)) :
    ∃ b, encodeSLEB128 Value start PadTo = (num.length, b) ∧ Wrote start b num := by
  obtain ⟨Value', Count, bytes, b, hstream, hbuffer, hwrote⟩ :=
    (Wrote.refl start).encodeSLEB128Loop PadTo Value 0
  unfold Stream.encodeSLEB128 at hnum
  unfold encodeSLEB128
  rw [hstream] at hnum
  rw [hbuffer]
  dsimp only at hnum ⊢
  by_cases hpad : Count < PadTo.toNat
  · rw [if_pos hpad] at hnum ⊢
    have hlast := (hwrote.padLoop ((if Value'.slt 0 then 0x7f else 0x00) ||| 0x80)
      (PadTo.toNat - 1 - Count)).put (if Value'.slt 0 then 0x7f else 0x00)
    rw [(Prod.mk.inj hnum).2] at hlast
    refine ⟨_, Prod.ext ?_ rfl, hlast⟩
    exact (congrArg (· - start.p) hlast.pointer).trans (Nat.add_sub_cancel_left _ _)
  · rw [if_neg hpad] at hnum ⊢
    rw [(Prod.mk.inj hnum).2] at hwrote
    refine ⟨_, Prod.ext ?_ rfl, hwrote⟩
    exact (congrArg (· - start.p) hwrote.pointer).trans (Nat.add_sub_cancel_left _ _)

theorem encodeULEB128_spec (Value : BitVec 64) (start : Buffer) (PadTo : BitVec 32)
    {num : List UInt8} (hnum : Stream.encodeULEB128 Value [] PadTo = (num.length, num)) :
    ∃ b, encodeULEB128 Value start PadTo = (num.length, b) ∧ Wrote start b num := by
  obtain ⟨Count, bytes, b, hstream, hbuffer, hwrote⟩ :=
    (Wrote.refl start).encodeULEB128Loop PadTo Value 0
  unfold Stream.encodeULEB128 at hnum
  unfold encodeULEB128
  rw [hstream] at hnum
  rw [hbuffer]
  dsimp only at hnum ⊢
  by_cases hpad : Count < PadTo.toNat
  · rw [if_pos hpad] at hnum ⊢
    have hlast := (hwrote.padLoop 0x80 (PadTo.toNat - 1 - Count)).put 0x00
    rw [(Prod.mk.inj hnum).2] at hlast
    refine ⟨_, Prod.ext ?_ rfl, hlast⟩
    exact (congrArg (· - start.p) hlast.pointer).trans (Nat.add_sub_cancel_left _ _)
  · rw [if_neg hpad] at hnum ⊢
    rw [(Prod.mk.inj hnum).2] at hwrote
    refine ⟨_, Prod.ext ?_ rfl, hwrote⟩
    exact (congrArg (· - start.p) hwrote.pointer).trans (Nat.add_sub_cancel_left _ _)

end Buffer

end SmlnjLlvm.LEB128
