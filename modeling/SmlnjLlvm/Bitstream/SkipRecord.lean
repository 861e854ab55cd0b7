import SmlnjLlvm.Bitstream.RecordPositions

/-!
# Skipping a record and reading it

`skipRecord` jumps over arrays that `readRecord` decodes element by element. The
two land on the same bit except behind an array of six-bit characters whose
length times six does not fit 32 bits.
-/

namespace SmlnjLlvm.Bitstream.BitstreamCursor

open BitString
open SimpleBitstreamCursor (At skipTarget)

variable {bytes : Bytes} {sc : Nat × List BitCodeAbbrev × List Block × Option BitstreamBlockInfo}

/-! ## Arrays -/

/-- The product that `skipRecord` computes in 32 bits is exact, or the jump it asks for fails. -/
def Char6Fits (NumElts : BitVec 32) (c : BitstreamCursor) : Prop :=
  NumElts.toNat * 6 < 2 ^ 32 ∨
    size c.BitcodeBytes < c.GetCurrentBitNo + (NumElts * 6).toNat

theorem toNat_mul_six (NumElts : BitVec 32) :
    (NumElts * 6).toNat = NumElts.toNat * 6 % 2 ^ 32 := by
  rw [BitVec.toNat_mul]
  rfl

/-- The elements that both functions decode the same way. -/
def ArrayFits (NumElts : BitVec 32) (c : BitstreamCursor) : BitCodeAbbrevOp → Prop
  | .encoding .Char6 _ => Char6Fits NumElts c
  | _ => True

variable {AbbrevID Code NumElts : BitVec 32} {EltEnc : BitCodeAbbrevOp} {Ops : List BitCodeAbbrevOp}
  {c c' c₁ c₂ : BitstreamCursor}

theorem jump_iff_skipMany {read : Run (BitVec 64)} {w n pos : Nat} (hread : Takes bytes sc w read)
    (hc : Stands bytes sc pos c) :
    (∃ c', JumpToBit (c.GetCurrentBitNo + n * w) c = .ok ((), c')) ↔
      ∃ c', skipMany read n c = .ok ((), c') := by
  rw [hc.bitNo]
  constructor
  · intro h
    obtain ⟨c', hjump⟩ := h
    exact hread.skipMany hc (hc.of_jump hjump).1
  · intro h
    obtain ⟨c', hskip⟩ := h
    obtain ⟨c'', hjump, -⟩ := hc.jump (hread.of_skipMany hc hskip).1
    exact ⟨c'', hjump⟩

/-- Two outcomes of an array that are both missing, or lead to the same bit past `n` elements. -/
structure SameArray (bytes : Bytes)
    (sc : Nat × List BitCodeAbbrev × List Block × Option BitstreamBlockInfo) (n pos : Nat)
    (c₁ c₂ : BitstreamCursor) : Prop where
  stop : ∃ pos', pos + n ≤ pos' ∧ Stands bytes sc pos' c₁ ∧ Stands bytes sc pos' c₂

theorem fixed_array {read : Run (BitVec 64)} {w n pos : Nat} (hread : Takes bytes sc w read)
    (hw : 1 ≤ w) (hc : Stands bytes sc pos c) (hskip : skipMany read n c = .ok ((), c₁))
    (hjump : JumpToBit (c.GetCurrentBitNo + n * w) c = .ok ((), c₂)) :
    SameArray bytes sc n pos c₁ c₂ := by
  rw [hc.bitNo] at hjump
  have hle := Nat.mul_le_mul_left n hw
  exact ⟨pos + n * w, by omega, (hread.of_skipMany hc hskip).2, (hc.of_jump hjump).2⟩

theorem skipArray_of_readArray {pos : Nat} (hc : Stands bytes sc pos c) (helt : EltEnc.WellFormed)
    (hfits : ArrayFits NumElts c EltEnc) {r r' : RecordData}
    (h : readArray NumElts r EltEnc c = .ok (r', c₁)) :
    ∃ c₂, skipArray NumElts EltEnc c = .ok ((), c₂) ∧
      SameArray bytes sc NumElts.toNat pos c₁ c₂ := by
  cases EltEnc with
  | literal Val => cases h
  | encoding Enc Val =>
    cases Enc with
    | Fixed =>
      have hwidth := toNat_width helt
      have htakes : Takes bytes sc Val.toNat (Read Val.toNat) :=
        takes_read ⟨helt.1, by have := helt.2; omega⟩
      rw [readArray, hwidth] at h
      have hskip := skipMany_ok_of_readMany h
      obtain ⟨c₂, hjump⟩ := (jump_iff_skipMany htakes hc).mpr ⟨c₁, hskip⟩
      refine ⟨c₂, ?_, fixed_array htakes helt.1 hc hskip hjump⟩
      rw [skipArray, assert_bind (by rw [hwidth]; exact helt.2),
        Call.bind_of_ok (Call.get_run c), hjump]
    | VBR =>
      have hwidth := toNat_width helt
      rw [readArray, hwidth] at h
      have hskip := skipMany_ok_of_readMany h
      obtain ⟨pos', hle, hc₁⟩ := (advances_readVBR64 helt).skipMany hc hskip
      refine ⟨c₁, ?_, pos', hle, hc₁, hc₁⟩
      rw [skipArray, assert_bind (by rw [hwidth]; exact helt.2), hwidth, hskip]
    | Array => cases h
    | Char6 =>
      have hskip := skipMany_ok_of_readMany h
      have hend := (takes_char6.of_skipMany hc hskip).1
      have hmod := toNat_mul_six NumElts
      have hexact : (NumElts * 6).toNat = NumElts.toNat * 6 := by
        have hfits' : Char6Fits NumElts c := hfits
        rw [Char6Fits, hc.bitNo, hc.position.bytes_eq] at hfits'
        omega
      obtain ⟨c₂, hjump⟩ := (jump_iff_skipMany takes_char6 hc).mpr ⟨c₁, hskip⟩
      refine ⟨c₂, ?_, fixed_array takes_char6 (by decide) hc hskip hjump⟩
      rw [skipArray, Call.bind_of_ok (Call.get_run c), hexact, hjump]
    | Blob => cases h

theorem readArray_of_skipArray {pos : Nat} (hc : Stands bytes sc pos c) (helt : EltEnc.WellFormed)
    (hfits : ArrayFits NumElts c EltEnc) (r : RecordData)
    (h : skipArray NumElts EltEnc c = .ok ((), c₂)) :
    ∃ r' c₁, readArray NumElts r EltEnc c = .ok (r', c₁) ∧
      SameArray bytes sc NumElts.toNat pos c₁ c₂ := by
  cases EltEnc with
  | literal Val => cases h
  | encoding Enc Val =>
    cases Enc with
    | Fixed =>
      have hwidth := toNat_width helt
      have htakes : Takes bytes sc Val.toNat (Read Val.toNat) :=
        takes_read ⟨helt.1, by have := helt.2; omega⟩
      rw [skipArray, assert_bind (by rw [hwidth]; exact helt.2),
        Call.bind_of_ok (Call.get_run c)] at h
      obtain ⟨c₁, hskip⟩ := (jump_iff_skipMany htakes hc).mp ⟨c₂, h⟩
      obtain ⟨r', hread⟩ := readMany_ok_of_skipMany r hskip
      refine ⟨r', c₁, ?_, fixed_array htakes helt.1 hc hskip h⟩
      rw [readArray, hwidth, hread]
    | VBR =>
      have hwidth := toNat_width helt
      rw [skipArray, assert_bind (by rw [hwidth]; exact helt.2), hwidth] at h
      obtain ⟨pos', hle, hc₂⟩ := (advances_readVBR64 helt).skipMany hc h
      obtain ⟨r', hread⟩ := readMany_ok_of_skipMany r h
      refine ⟨r', c₂, ?_, pos', hle, hc₂, hc₂⟩
      rw [readArray, hwidth, hread]
    | Array => cases h
    | Char6 =>
      rw [skipArray, Call.bind_of_ok (Call.get_run c)] at h
      have hend := (hc.of_jump h).1
      have hmod := toNat_mul_six NumElts
      have hexact : (NumElts * 6).toNat = NumElts.toNat * 6 := by
        have hfits' : Char6Fits NumElts c := hfits
        rw [Char6Fits, hc.bitNo, hc.position.bytes_eq] at hfits'
        rw [hc.bitNo] at hend
        omega
      rw [hexact] at h
      obtain ⟨c₁, hskip⟩ := (jump_iff_skipMany takes_char6 hc).mp ⟨c₂, h⟩
      obtain ⟨r', hread⟩ := readMany_ok_of_skipMany r hskip
      exact ⟨r', c₁, hread, fixed_array takes_char6 (by decide) hc hskip h⟩
    | Blob => cases h

/-- The length of an array whose elements are six-bit characters. -/
def char6Length : List BitCodeAbbrevOp → Run (Option (BitVec 32))
  | [.encoding .Char6 _] => some <$> ReadVBR 6
  | _ => pure none

/-- Decode the operands before an array of six-bit characters and its length. -/
def char6Array : List BitCodeAbbrevOp → Run (Option (BitVec 32))
  | [] => pure none
  | .literal _ :: Ops => char6Array Ops
  | .encoding .Array _ :: Ops => char6Length Ops
  | .encoding .Blob _ :: Ops => do
      let NumElts ← ReadVBR 6
      SkipToFourByteBoundary
      let c ← get
      let NewEnd := c.GetCurrentBitNo + Alignment.roundUp NumElts.toNat 4 * 8
      if ¬c.canSkipToPos (NewEnd / 8) then
        pure none
      else
        JumpToBit NewEnd
        char6Array Ops
  | Op :: Ops => do
      let _ ← readAbbreviatedField Op
      char6Array Ops

/-- The length of an array of six-bit characters that these operands lead to. -/
def OperandsFit (Ops : List BitCodeAbbrevOp) (c : BitstreamCursor) : Prop :=
  match char6Array Ops c with
  | .ok (some NumElts, c') => Char6Fits NumElts c'
  | _ => True

theorem char6Array_field {Op : BitCodeAbbrevOp} (hop : BitCodeAbbrevOp.IsField Op)
    (Ops : List BitCodeAbbrevOp) :
    char6Array (Op :: Ops) = (do
      let _ ← readAbbreviatedField Op
      char6Array Ops) := by
  cases Op with
  | literal Val => exact hop.elim
  | encoding Enc Val => cases Enc <;> first | rfl | exact hop.elim

theorem OperandsFit.of_field {Op : BitCodeAbbrevOp} (hop : BitCodeAbbrevOp.IsField Op)
    {v : BitVec 64} (h : OperandsFit (Op :: Ops) c)
    (hread : readAbbreviatedField Op c = .ok (v, c')) : OperandsFit Ops c' := by
  rw [OperandsFit, char6Array_field hop, Call.bind_of_ok hread] at h
  exact h

theorem OperandsFit.of_array {Val : BitVec 64} (h : OperandsFit [.encoding .Array Val, EltEnc] c)
    (hread : ReadVBR 6 c = .ok (NumElts, c')) : ArrayFits NumElts c' EltEnc := by
  cases EltEnc with
  | literal _ => trivial
  | encoding Enc _ =>
    cases Enc
    case Char6 =>
      rw [OperandsFit, char6Array, char6Length, map_eq_pure_bind, Call.bind_of_ok hread] at h
      exact h
    all_goals trivial

theorem skipTarget_mod (bytes : Bytes) (pos : Nat) : skipTarget bytes pos % 8 = 0 := by
  rw [skipTarget]
  split <;> omega

theorem blob_end {pos n : Nat} (hc : Stands bytes sc pos c) (hmod : pos % 8 = 0)
    (h : c.canSkipToPos ((pos + Alignment.roundUp n 4 * 8) / 8)) :
    pos + Alignment.roundUp n 4 * 8 ≤ size bytes := by
  rw [SimpleBitstreamCursor.canSkipToPos, hc.position.bytes_eq] at h
  rw [size]
  omega

theorem blobAt_run {pos q n : Nat} (hc : Stands bytes sc pos c) (hmod : q % 8 = 0)
    (hend : q + Alignment.roundUp n 4 * 8 ≤ size bytes) :
    ∃ chars, blobAt q n c = .ok (chars, c) := by
  have hround := Alignment.le_roundUp n (a := 4) (by decide)
  rw [size] at hend
  rw [blobAt, if_pos hmod, hc.position.bytes_eq, slice_of_le (by omega)]
  exact ⟨_, rfl⟩

theorem blob_start {pos : Nat} (hc : Stands bytes sc pos c)
    (hread : ReadVBR 6 c = .ok (NumElts, c₁)) :
    ∃ c₂ q, SkipToFourByteBoundary c₁ = .ok ((), c₂) ∧ q % 8 = 0 ∧ Stands bytes sc q c₂ := by
  obtain ⟨pos₁, -, hc₁⟩ := hc.of_readVBR (by decide) hread
  obtain ⟨c₂, hskip, hc₂⟩ := hc₁.skip
  exact ⟨c₂, _, hskip, skipTarget_mod bytes pos₁, hc₂⟩

/-! ## Records -/

theorem OperandsFit.of_blob {Val : BitVec 64} {c₃ : BitstreamCursor}
    (h : OperandsFit (.encoding .Blob Val :: Ops) c) (hread : ReadVBR 6 c = .ok (NumElts, c₁))
    (hskip : SkipToFourByteBoundary c₁ = .ok ((), c₂))
    (hcan : c₂.canSkipToPos ((c₂.GetCurrentBitNo + Alignment.roundUp NumElts.toNat 4 * 8) / 8))
    (hjump : JumpToBit (c₂.GetCurrentBitNo + Alignment.roundUp NumElts.toNat 4 * 8) c₂ =
      .ok ((), c₃)) : OperandsFit Ops c₃ := by
  rw [OperandsFit, char6Array, Call.bind_of_ok hread, Call.bind_of_ok hskip,
    Call.bind_of_ok (Call.get_run c₂), if_neg (not_not.mpr hcan), Call.bind_of_ok hjump] at h
  exact h

theorem skipOperands_blob {Val : BitVec 64} (Ops : List BitCodeAbbrevOp) {c₃ : BitstreamCursor}
    (hread : ReadVBR 6 c = .ok (NumElts, c₁)) (hskip : SkipToFourByteBoundary c₁ = .ok ((), c₂))
    (hcan : c₂.canSkipToPos ((c₂.GetCurrentBitNo + Alignment.roundUp NumElts.toNat 4 * 8) / 8))
    (hjump : JumpToBit (c₂.GetCurrentBitNo + Alignment.roundUp NumElts.toNat 4 * 8) c₂ =
      .ok ((), c₃)) : skipOperands (.encoding .Blob Val :: Ops) c = skipOperands Ops c₃ := by
  rw [skipOperands, Call.bind_of_ok hread, Call.bind_of_ok hskip,
    Call.bind_of_ok (Call.get_run c₂), if_neg (not_not.mpr hcan), Call.bind_of_ok hjump]

/-- Where the two functions are when an operand list is done. -/
def SameStop (bytes : Bytes)
    (sc : Nat × List BitCodeAbbrev × List Block × Option BitstreamBlockInfo)
    (c₁ c₂ : BitstreamCursor) : Prop :=
  ∃ pos', Stands bytes sc pos' c₁ ∧ Stands bytes sc pos' c₂

theorem skipOperands_of_readOperands (wanted : Bool) :
    ∀ {r r' : RecordData} {c c₁ : BitstreamCursor} {pos : Nat}, Stands bytes sc pos c →
      (∀ Op ∈ Ops, Op.WellFormed) → OperandsFit Ops c →
      readOperands wanted Ops r c = .ok (r', c₁) →
      ∃ c₂, skipOperands Ops c = .ok (.finished, c₂) ∧ SameStop bytes sc c₁ c₂ := by
  induction Ops with
  | nil =>
    intro r r' c c₁ pos hc _ _ h
    cases h
    exact ⟨c, rfl, pos, hc, hc⟩
  | cons Op Ops ih =>
    intro r r' c c₁ pos hc hwf hfit h
    have hwf' : ∀ Op ∈ Ops, Op.WellFormed := fun Op hop => hwf Op (List.mem_cons_of_mem _ hop)
    have hfield (hop : BitCodeAbbrevOp.IsField Op) :
        ∃ c₂, skipOperands (Op :: Ops) c = .ok (.finished, c₂) ∧ SameStop bytes sc c₁ c₂ := by
      rw [readOperands_field hop] at h
      obtain ⟨v, c', hread, hrest⟩ := Call.bind_eq_ok.mp h
      obtain ⟨pos', -, hc'⟩ := advances_field (hwf Op (List.mem_cons_self ..)) c pos v c' hc hread
      rw [skipOperands_field hop, Call.bind_of_ok hread]
      exact ih hc' hwf' (hfit.of_field hop hread) hrest
    cases Op with
    | literal Val => exact ih hc hwf' hfit h
    | encoding Enc Val =>
      cases Enc with
      | Fixed => exact hfield trivial
      | VBR => exact hfield trivial
      | Char6 => exact hfield trivial
      | Array =>
        rw [readOperands] at h
        obtain ⟨NumElts, c', hsize, hrest⟩ := Call.bind_eq_ok.mp h
        have hread := (readPlausibleSize_ok.mp hsize).1
        obtain ⟨pos', -, hc'⟩ := hc.of_readVBR (by decide) hread
        by_cases hlen : Ops.length = 1
        · obtain ⟨EltEnc, rfl⟩ := List.length_eq_one_iff.mp hlen
          obtain ⟨r'', c'', harray, hnil⟩ := Call.bind_eq_ok.mp hrest
          cases hnil
          obtain ⟨c₂, hskip, hstop⟩ := skipArray_of_readArray hc'
            (hwf' EltEnc (List.mem_cons_self ..)) (hfit.of_array hread) harray
          obtain ⟨stop, -, hc₁, hc₂⟩ := hstop.stop
          refine ⟨c₂, ?_, stop, hc₁, hc₂⟩
          rw [skipOperands, Call.bind_of_ok hread, assert_bind hlen]
          exact Call.bind_of_ok hskip
        · rw [if_pos hlen] at hrest
          cases hrest
      | Blob =>
        obtain ⟨NumElts, c', hread, -⟩ := Call.bind_eq_ok.mp h
        obtain ⟨c₂, q, hskip, hmod, hc₂⟩ := blob_start hc hread
        rw [readOperands, Call.bind_of_ok hread, Call.bind_of_ok hskip,
          Call.bind_of_ok (Call.get_run c₂)] at h
        by_cases hcan : c₂.canSkipToPos
            ((c₂.GetCurrentBitNo + Alignment.roundUp NumElts.toNat 4 * 8) / 8)
        · rw [if_neg (not_not.mpr hcan)] at h
          obtain ⟨_, c₃, hjump, hrest⟩ := Call.bind_eq_ok.mp h
          obtain ⟨hend, hc₃⟩ := hc₂.of_jump hjump
          rw [hc₂.bitNo] at hend hc₃
          obtain ⟨chars, hblob⟩ := blobAt_run hc₃ hmod hend
          rw [hc₂.bitNo, Call.bind_of_ok hblob] at hrest
          rw [skipOperands_blob Ops hread hskip hcan hjump]
          exact ih hc₃ hwf' (hfit.of_blob hread hskip hcan hjump) hrest
        · rw [if_pos hcan] at h
          cases h

theorem readOperands_of_skipOperands (wanted : Bool) :
    ∀ (r : RecordData) {c c₂ : BitstreamCursor} {pos : Nat}, Stands bytes sc pos c →
      (∀ Op ∈ Ops, Op.WellFormed) → OperandsFit Ops c →
      skipOperands Ops c = .ok (.finished, c₂) →
      ∃ r' c₁, readOperands wanted Ops r c = .ok (r', c₁) ∧ SameStop bytes sc c₁ c₂ := by
  induction Ops with
  | nil =>
    intro r c c₂ pos hc _ _ h
    cases h
    exact ⟨r, c, rfl, pos, hc, hc⟩
  | cons Op Ops ih =>
    intro r c c₂ pos hc hwf hfit h
    have hwf' : ∀ Op ∈ Ops, Op.WellFormed := fun Op hop => hwf Op (List.mem_cons_of_mem _ hop)
    have hfield (hop : BitCodeAbbrevOp.IsField Op) : ∃ r' c₁,
        readOperands wanted (Op :: Ops) r c = .ok (r', c₁) ∧ SameStop bytes sc c₁ c₂ := by
      rw [skipOperands_field hop] at h
      obtain ⟨v, c', hread, hrest⟩ := Call.bind_eq_ok.mp h
      obtain ⟨pos', -, hc'⟩ := advances_field (hwf Op (List.mem_cons_self ..)) c pos v c' hc hread
      rw [readOperands_field hop, Call.bind_of_ok hread]
      exact ih _ hc' hwf' (hfit.of_field hop hread) hrest
    cases Op with
    | literal Val => exact ih _ hc hwf' hfit h
    | encoding Enc Val =>
      cases Enc with
      | Fixed => exact hfield trivial
      | VBR => exact hfield trivial
      | Char6 => exact hfield trivial
      | Array =>
        rw [skipOperands] at h
        obtain ⟨NumElts, c', hread, hrest⟩ := Call.bind_eq_ok.mp h
        obtain ⟨pos', hle, hc'⟩ := hc.of_readVBR (by decide) hread
        obtain ⟨_, _, hassert, -⟩ := Call.bind_eq_ok.mp hrest
        have hlen := (Call.assert_eq_ok.mp hassert).1
        rw [assert_bind hlen] at hrest
        obtain ⟨EltEnc, rfl⟩ := List.length_eq_one_iff.mp hlen
        obtain ⟨_, c'', hskip, hnil⟩ := Call.bind_eq_ok.mp hrest
        cases hnil
        obtain ⟨r', c₁, harray, hstop⟩ := readArray_of_skipArray hc'
          (hwf' EltEnc (List.mem_cons_self ..)) (hfit.of_array hread) r hskip
        obtain ⟨stop, hstop, hc₁, hc₂⟩ := hstop.stop
        have hplausible := plausible_of_stands hc' (by omega) hstop hc₁.pos_le
        refine ⟨r', c₁, ?_, stop, hc₁, hc₂⟩
        rw [readOperands, Call.bind_of_ok (readPlausibleSize_ok.mpr ⟨hread, hplausible⟩),
          if_neg (not_not.mpr hlen)]
        exact Call.bind_of_ok harray
      | Blob =>
        obtain ⟨NumElts, c', hread, -⟩ := Call.bind_eq_ok.mp h
        obtain ⟨c₂', q, hskip, hmod, hc₂'⟩ := blob_start hc hread
        by_cases hcan : c₂'.canSkipToPos
            ((c₂'.GetCurrentBitNo + Alignment.roundUp NumElts.toNat 4 * 8) / 8)
        · have hend := hcan
          rw [hc₂'.bitNo] at hend
          obtain ⟨c₃, hjump, hc₃⟩ := hc₂'.jump (blob_end hc₂' hmod hend)
          rw [← hc₂'.bitNo] at hjump
          rw [skipOperands_blob Ops hread hskip hcan hjump] at h
          obtain ⟨chars, hblob⟩ := blobAt_run hc₃ hmod (blob_end hc₂' hmod hend)
          rw [readOperands, Call.bind_of_ok hread, Call.bind_of_ok hskip,
            Call.bind_of_ok (Call.get_run c₂')]
          rw [if_neg (not_not.mpr hcan), Call.bind_of_ok hjump, hc₂'.bitNo,
            Call.bind_of_ok hblob]
          exact ih _ hc₃ hwf' (hfit.of_blob hread hskip hcan hjump) h
        · rw [skipOperands, Call.bind_of_ok hread, Call.bind_of_ok hskip,
            Call.bind_of_ok (Call.get_run c₂')] at h
          rw [if_pos hcan] at h
          cases h

theorem skipOperands_of_cut :
    ∀ {c c' : BitstreamCursor} {pos : Nat} {NumElts : BitVec 32}, Stands bytes sc pos c →
      (∀ Op ∈ Ops, Op.WellFormed) → char6Array Ops c = .ok (some NumElts, c') →
      ¬Char6Fits NumElts c' →
      ∃ c₂, skipOperands Ops c = .ok (.finished, c₂) ∧ ∀ wanted r r' c₁,
        readOperands wanted Ops r c = .ok (r', c₁) → c₁.GetCurrentBitNo ≠ c₂.GetCurrentBitNo := by
  induction Ops with
  | nil =>
    intro c c' pos NumElts _ _ h
    cases h
  | cons Op Ops ih =>
    intro c c' pos NumElts hc hwf h hcut
    have hwf' : ∀ Op ∈ Ops, Op.WellFormed := fun Op hop => hwf Op (List.mem_cons_of_mem _ hop)
    have hfield (hop : BitCodeAbbrevOp.IsField Op) :
        ∃ c₂, skipOperands (Op :: Ops) c = .ok (.finished, c₂) ∧ ∀ wanted r r' c₁,
          readOperands wanted (Op :: Ops) r c = .ok (r', c₁) →
            c₁.GetCurrentBitNo ≠ c₂.GetCurrentBitNo := by
      rw [char6Array_field hop] at h
      obtain ⟨v, c₁, hread, hrest⟩ := Call.bind_eq_ok.mp h
      obtain ⟨pos', -, hc₁⟩ := advances_field (hwf Op (List.mem_cons_self ..)) c pos v c₁ hc hread
      obtain ⟨c₂, hskip, hne⟩ := ih hc₁ hwf' hrest hcut
      refine ⟨c₂, ?_, ?_⟩
      · rw [skipOperands_field hop, Call.bind_of_ok hread, hskip]
      · intro wanted r r' c₃ hrun
        rw [readOperands_field hop, Call.bind_of_ok hread] at hrun
        exact hne wanted _ r' c₃ hrun
    cases Op with
    | literal Val =>
      obtain ⟨c₂, hskip, hne⟩ := ih hc hwf' h hcut
      exact ⟨c₂, hskip, fun wanted r r' c₃ hrun => hne wanted _ r' c₃ hrun⟩
    | encoding Enc Val =>
      cases Enc with
      | Fixed => exact hfield trivial
      | VBR => exact hfield trivial
      | Char6 => exact hfield trivial
      | Array =>
        rw [char6Array] at h
        unfold char6Length at h
        split at h
        · next Data =>
          rw [map_eq_pure_bind] at h
          obtain ⟨n, c₁, hread, hpure⟩ := Call.bind_eq_ok.mp h
          cases hpure
          obtain ⟨pos', -, hc'⟩ := hc.of_readVBR (by decide) hread
          have hmod := toNat_mul_six NumElts
          have hjump : c'.GetCurrentBitNo + (NumElts * 6).toNat ≤ size bytes ∧
              2 ^ 32 ≤ NumElts.toNat * 6 := by
            rw [Char6Fits, hc'.position.bytes_eq] at hcut
            omega
          obtain ⟨c₂, hrun, hc₂⟩ := hc'.jump hjump.1
          refine ⟨c₂, ?_, ?_⟩
          · rw [skipOperands, Call.bind_of_ok hread, assert_bind (List.length_singleton ..)]
            refine Call.bind_of_ok (a := ()) ?_
            rw [skipArray, Call.bind_of_ok (Call.get_run c'), hrun]
          · intro wanted r r' c₃ hread'
            obtain ⟨n', c₁', hsize, hrest⟩ := Call.bind_eq_ok.mp hread'
            have hsame := (readPlausibleSize_ok.mp hsize).1
            rw [hread] at hsame
            cases hsame
            obtain ⟨r'', c'', harray, hnil⟩ := Call.bind_eq_ok.mp hrest
            cases hnil
            have hstop := (takes_char6.of_skipMany hc' (skipMany_ok_of_readMany harray)).2
            rw [hstop.bitNo, hc₂.bitNo, hc'.bitNo]
            omega
        · cases h
      | Blob =>
        rw [char6Array] at h
        obtain ⟨n, c₁, hread, -⟩ := Call.bind_eq_ok.mp h
        obtain ⟨c₂', q, hskip, hmod, hc₂'⟩ := blob_start hc hread
        rw [Call.bind_of_ok hread, Call.bind_of_ok hskip,
          Call.bind_of_ok (Call.get_run c₂')] at h
        by_cases hcan : c₂'.canSkipToPos
            ((c₂'.GetCurrentBitNo + Alignment.roundUp n.toNat 4 * 8) / 8)
        · rw [if_neg (not_not.mpr hcan)] at h
          obtain ⟨_, c₃, hjump, hrest⟩ := Call.bind_eq_ok.mp h
          obtain ⟨hend, hc₃⟩ := hc₂'.of_jump hjump
          obtain ⟨c₂, hskip', hne⟩ := ih hc₃ hwf' hrest hcut
          refine ⟨c₂, (skipOperands_blob Ops hread hskip hcan hjump).trans hskip', ?_⟩
          intro wanted r r' c₄ hrun
          rw [readOperands, Call.bind_of_ok hread, Call.bind_of_ok hskip,
            Call.bind_of_ok (Call.get_run c₂'), if_neg (not_not.mpr hcan),
            Call.bind_of_ok hjump] at hrun
          obtain ⟨chars, c₅, hblob, hrun⟩ := Call.bind_eq_ok.mp hrun
          obtain ⟨chars', hblob'⟩ := blobAt_run hc₃ hmod (by rwa [hc₂'.bitNo] at hend)
          rw [hc₂'.bitNo, hblob'] at hblob
          cases hblob
          exact hne wanted _ r' c₄ hrun
        · rw [if_pos hcan] at h
          cases h

/-- The length of the array of six-bit characters that a record ends with. -/
def char6ArrayOf (AbbrevID : BitVec 32) : Run (Option (BitVec 32)) := do
  if AbbrevID.toNat = bitc.UNABBREV_RECORD then
    pure none
  else
    let Abbv ← getAbbrev AbbrevID
    match Abbv with
    | [] => pure none
    | CodeOp :: Ops =>
      let _ ← readCode CodeOp
      char6Array Ops

/-- The array of six-bit characters of the record at the cursor, if it has one, is of a length
whose product by six fits 32 bits, or the cut product leads past the end of the string. -/
def RecordFits (AbbrevID : BitVec 32) (c : BitstreamCursor) : Prop :=
  ∀ NumElts c', char6ArrayOf AbbrevID c = .ok (some NumElts, c') → Char6Fits NumElts c'

/-- Skipping a record agrees with reading it. -/
structure SkipAgrees (AbbrevID : BitVec 32) (c : BitstreamCursor) : Prop where
  skip_of_read : ∀ wanted r Code r' c₁, readRecord AbbrevID wanted r c = .ok ((Code, r'), c₁) →
    ∃ c₂, skipRecord AbbrevID c = .ok (Code, c₂) ∧
      c₂.GetCurrentBitNo = c₁.GetCurrentBitNo ∧ c₂.scope = c₁.scope
  read_of_skip : ∀ Code c₂, skipRecordExit AbbrevID c = .ok ((Code, .finished), c₂) →
    ∀ wanted r, ∃ r' c₁, readRecord AbbrevID wanted r c = .ok ((Code, r'), c₁) ∧
      c₁.GetCurrentBitNo = c₂.GetCurrentBitNo

/-- The abbreviation was read by `ReadAbbrevRecord`. -/
def ReadFromStream (Abbv : BitCodeAbbrev) : Prop :=
  ∃ c c', ReadAbbrevRecord c = .ok ((), c') ∧ c'.CurAbbrevs = c.CurAbbrevs ++ [Abbv]

theorem ReadFromStream.wellFormed {Abbv : BitCodeAbbrev} (h : ReadFromStream Abbv) :
    WellFormedAbbrev Abbv := by
  obtain ⟨c, c', hread, hlist⟩ := h
  obtain ⟨Abbv', hwf, hscope⟩ := ReadAbbrevRecord_ok hread
  simp only [scope, Prod.mk.injEq] at hscope
  rw [hscope.2.1] at hlist
  rwa [← List.singleton_inj.mp (List.append_cancel_left hlist)]

/-! ## The whole record -/

theorem getAbbrev_ok {Abbv : BitCodeAbbrev} (h : getAbbrev AbbrevID c = .ok (Abbv, c')) :
    Abbv ∈ c.CurAbbrevs ∧ c' = c := by
  rw [getAbbrev, Call.bind_of_ok (Call.get_run c)] at h
  cases hget : c.CurAbbrevs[(AbbrevID - .ofNat 32 bitc.FIRST_APPLICATION_ABBREV).toNat]? with
  | none =>
    rw [hget] at h
    cases h
  | some Abbv' =>
    rw [hget] at h
    cases h
    exact ⟨List.mem_of_getElem? hget, rfl⟩

theorem readCode_ok {CodeOp : BitCodeAbbrevOp} (hop : CodeOp.WellFormed) {pos : Nat}
    (hc : Stands bytes sc pos c) (h : readCode CodeOp c = .ok (Code, c')) :
    ∃ pos', Stands bytes sc pos' c' := by
  cases CodeOp with
  | literal Val =>
    cases h
    exact ⟨pos, hc⟩
  | encoding Enc Val =>
    have hfield (hrun : (do
        let MaybeCode ← readAbbreviatedField (.encoding Enc Val)
        pure (MaybeCode.setWidth 32) : Run (BitVec 32)) c = .ok (Code, c')) :
        ∃ pos', Stands bytes sc pos' c' := by
      obtain ⟨v, c₁, hread, hpure⟩ := Call.bind_eq_ok.mp hrun
      cases hpure
      obtain ⟨pos', -, hc'⟩ := advances_field hop c pos v _ hc hread
      exact ⟨pos', hc'⟩
    cases Enc with
    | Fixed => exact hfield h
    | VBR => exact hfield h
    | Char6 => exact hfield h
    | Array => cases h
    | Blob => cases h

theorem skipRecord_of_exit {exit : LoopExit}
    (h : skipRecordExit AbbrevID c = .ok ((Code, exit), c₂)) :
    skipRecord AbbrevID c = .ok (Code, c₂) := by
  rw [skipRecord, map_eq_pure_bind, Call.bind_of_ok h]
  rfl

/-- The three functions on an abbreviated record whose code has been read. -/
structure Prefix (AbbrevID : BitVec 32) (c c' : BitstreamCursor) (Code : BitVec 32)
    (Ops : List BitCodeAbbrevOp) : Prop where
  read : ∀ wanted r, readRecord AbbrevID wanted r c = (do
    let r ← readOperands wanted Ops r
    pure (Code, r) : Run (BitVec 32 × RecordData)) c'
  skip : skipRecordExit AbbrevID c = (do
    let exit ← skipOperands Ops
    pure (Code, exit) : Run (BitVec 32 × LoopExit)) c'
  char6 : char6ArrayOf AbbrevID c = char6Array Ops c'

theorem prefix_of_ok (hid : AbbrevID.toNat ≠ bitc.UNABBREV_RECORD) {CodeOp : BitCodeAbbrevOp}
    (habbrev : getAbbrev AbbrevID c = .ok (CodeOp :: Ops, c))
    (hcode : readCode CodeOp c = .ok (Code, c')) : Prefix AbbrevID c c' Code Ops where
  read := fun wanted r => by
    rw [readRecord, if_neg hid, Call.bind_of_ok habbrev]
    exact Call.bind_of_ok hcode
  skip := by
    rw [skipRecordExit, if_neg hid, Call.bind_of_ok habbrev]
    exact Call.bind_of_ok hcode
  char6 := by
    rw [char6ArrayOf, if_neg hid, Call.bind_of_ok habbrev]
    exact Call.bind_of_ok hcode

theorem prefix_cases (hid : AbbrevID.toNat ≠ bitc.UNABBREV_RECORD) {pos : Nat}
    (hc : Stands bytes sc pos c) (hwf : ∀ Abbv ∈ c.CurAbbrevs, WellFormedAbbrev Abbv) :
    ((∀ wanted r out, readRecord AbbrevID wanted r c ≠ .ok out) ∧
        (∀ out, skipRecordExit AbbrevID c ≠ .ok out) ∧
        ∀ out, char6ArrayOf AbbrevID c ≠ .ok out) ∨
      ∃ Code Ops c' pos', Prefix AbbrevID c c' Code Ops ∧ Stands bytes sc pos' c' ∧
        ∀ Op ∈ Ops, Op.WellFormed := by
  by_cases hok : ∃ Abbv c₁, getAbbrev AbbrevID c = .ok (Abbv, c₁)
  · obtain ⟨Abbv, c₁, habbrev⟩ := hok
    obtain ⟨hmem, hsame⟩ := getAbbrev_ok habbrev
    rw [hsame] at habbrev
    have hAbbv := hwf Abbv hmem
    cases Abbv with
    | nil => exact absurd rfl hAbbv.1
    | cons CodeOp Ops =>
      by_cases hcode : ∃ Code c', readCode CodeOp c = .ok (Code, c')
      · obtain ⟨Code, c', hcode⟩ := hcode
        obtain ⟨pos', hc'⟩ := readCode_ok (hAbbv.2 CodeOp (List.mem_cons_self ..)) hc hcode
        exact .inr ⟨Code, Ops, c', pos', prefix_of_ok hid habbrev hcode, hc',
          fun Op hop => hAbbv.2 Op (List.mem_cons_of_mem _ hop)⟩
      · refine .inl ⟨fun wanted r out h => ?_, fun out h => ?_, fun out h => ?_⟩
        · rw [readRecord, if_neg hid, Call.bind_of_ok habbrev] at h
          obtain ⟨Code, c', h, -⟩ := Call.bind_eq_ok.mp h
          exact hcode ⟨Code, c', h⟩
        · rw [skipRecordExit, if_neg hid, Call.bind_of_ok habbrev] at h
          obtain ⟨Code, c', h, -⟩ := Call.bind_eq_ok.mp h
          exact hcode ⟨Code, c', h⟩
        · rw [char6ArrayOf, if_neg hid, Call.bind_of_ok habbrev] at h
          obtain ⟨Code, c', h, -⟩ := Call.bind_eq_ok.mp h
          exact hcode ⟨Code, c', h⟩
  · refine .inl ⟨fun wanted r out h => ?_, fun out h => ?_, fun out h => ?_⟩
    · rw [readRecord, if_neg hid] at h
      obtain ⟨Abbv, c', h, -⟩ := Call.bind_eq_ok.mp h
      exact hok ⟨Abbv, c', h⟩
    · rw [skipRecordExit, if_neg hid] at h
      obtain ⟨Abbv, c', h, -⟩ := Call.bind_eq_ok.mp h
      exact hok ⟨Abbv, c', h⟩
    · rw [char6ArrayOf, if_neg hid] at h
      obtain ⟨Abbv, c', h, -⟩ := Call.bind_eq_ok.mp h
      exact hok ⟨Abbv, c', h⟩

theorem skipAgrees_unabbreviated (hid : AbbrevID.toNat = bitc.UNABBREV_RECORD) {pos : Nat}
    (hc : Stands bytes sc pos c) : SkipAgrees AbbrevID c where
  skip_of_read := by
    intro wanted r Code r' c₁ h
    rw [readRecord, if_pos hid] at h
    obtain ⟨Code', c₂, hcode, h⟩ := Call.bind_eq_ok.mp h
    obtain ⟨NumElts, c₃, hsize, h⟩ := Call.bind_eq_ok.mp h
    obtain ⟨r'', c₄, hmany, h⟩ := Call.bind_eq_ok.mp h
    cases h
    refine ⟨c₁, @skipRecord_of_exit _ _ _ _ .finished ?_, rfl, rfl⟩
    rw [skipRecordExit, if_pos hid, Call.bind_of_ok hcode,
      Call.bind_of_ok (readPlausibleSize_ok.mp hsize).1,
      Call.bind_of_ok (skipMany_ok_of_readMany hmany), Call.pure_run]
  read_of_skip := by
    intro Code c₂ h wanted r
    rw [skipRecordExit, if_pos hid] at h
    obtain ⟨Code', c₃, hcode, h⟩ := Call.bind_eq_ok.mp h
    obtain ⟨NumElts, c₄, hsize, h⟩ := Call.bind_eq_ok.mp h
    obtain ⟨_, c₅, hmany, h⟩ := Call.bind_eq_ok.mp h
    cases h
    obtain ⟨pos₃, hle₃, hc₃⟩ := hc.of_readVBR (by decide) hcode
    obtain ⟨pos₄, hle₄, hc₄⟩ := hc₃.of_readVBR (by decide) hsize
    obtain ⟨pos₂, hle₂, hc₂⟩ := (advances_readVBR64 (by decide)).skipMany hc₄ hmany
    have hplausible := plausible_of_stands hc₄ (by omega) hle₂ hc₂.pos_le
    obtain ⟨r', hread⟩ := readMany_ok_of_skipMany r hmany
    refine ⟨r', c₂, ?_, rfl⟩
    rw [readRecord, if_pos hid, Call.bind_of_ok hcode,
      Call.bind_of_ok (readPlausibleSize_ok.mpr ⟨hsize, hplausible⟩), Call.bind_of_ok hread,
      Call.pure_run]

theorem skipAgrees_of_fit {pos : Nat} (hpre : Prefix AbbrevID c c' Code Ops)
    (hc' : Stands bytes sc pos c') (hwf : ∀ Op ∈ Ops, Op.WellFormed) (hfit : OperandsFit Ops c') :
    SkipAgrees AbbrevID c where
  skip_of_read := by
    intro wanted r Code' r' c₁ h
    rw [hpre.read] at h
    obtain ⟨r'', c₁', hread, h⟩ := Call.bind_eq_ok.mp h
    cases h
    obtain ⟨c₂, hskip, stop, hc₁, hc₂⟩ := skipOperands_of_readOperands wanted hc' hwf hfit hread
    refine ⟨c₂, @skipRecord_of_exit _ _ _ _ .finished ?_, ?_, ?_⟩
    · rw [hpre.skip, Call.bind_of_ok hskip, Call.pure_run]
    · rw [hc₁.bitNo, hc₂.bitNo]
    · rw [hc₁.scope_eq, hc₂.scope_eq]
  read_of_skip := by
    intro Code' c₂ h wanted r
    rw [hpre.skip] at h
    obtain ⟨exit, c₂', hskip, h⟩ := Call.bind_eq_ok.mp h
    cases h
    obtain ⟨r', c₁, hread, stop, hc₁, hc₂⟩ :=
      readOperands_of_skipOperands wanted r hc' hwf hfit hskip
    refine ⟨r', c₁, ?_, ?_⟩
    · rw [hpre.read, Call.bind_of_ok hread, Call.pure_run]
    · rw [hc₁.bitNo, hc₂.bitNo]

/-- Skipping a record agrees with reading it, at every position and for every list of abbreviations
from the stream, exactly when the length of its array of six-bit characters is not cut. -/
theorem skipRecord_agrees_iff {bytes : Bytes} {pos : Nat} {c : BitstreamCursor}
    (hc : At c.toSimpleBitstreamCursor bytes pos) (habbrevs : ∀ Abbv ∈ c.CurAbbrevs, ReadFromStream Abbv)
    (AbbrevID : BitVec 32) : SkipAgrees AbbrevID c ↔ RecordFits AbbrevID c := by
  have hstands : Stands bytes c.scope pos c := ⟨hc, rfl⟩
  by_cases hid : AbbrevID.toNat = bitc.UNABBREV_RECORD
  · refine iff_of_true (skipAgrees_unabbreviated hid hstands) fun NumElts c' h => ?_
    rw [char6ArrayOf, if_pos hid] at h
    cases h
  · rcases prefix_cases hid hstands fun Abbv hmem => (habbrevs Abbv hmem).wellFormed with
      ⟨hread, hskip, hchar6⟩ | ⟨Code, Ops, c', pos', hpre, hc', hwf⟩
    · refine iff_of_true ⟨fun wanted r Code r' c₁ h => absurd h (hread wanted r _),
        fun Code c₂ h => absurd h (hskip _)⟩ fun NumElts c' h => absurd h (hchar6 _)
    · constructor
      · intro hagrees NumElts c'' hchar6
        rw [hpre.char6] at hchar6
        by_contra hcut
        obtain ⟨c₂, hskip, hne⟩ := skipOperands_of_cut hc' hwf hchar6 hcut
        have hexit : skipRecordExit AbbrevID c = .ok ((Code, .finished), c₂) := by
          rw [hpre.skip, Call.bind_of_ok hskip, Call.pure_run]
        obtain ⟨r', c₁, hread, heq⟩ := hagrees.read_of_skip Code c₂ hexit false {}
        rw [hpre.read] at hread
        obtain ⟨r'', c₁', hread, hpure⟩ := Call.bind_eq_ok.mp hread
        cases hpure
        exact hne false {} _ _ hread heq
      · intro hfits
        refine skipAgrees_of_fit hpre hc' hwf ?_
        unfold OperandsFit
        split
        · next NumElts c'' h => exact hfits NumElts c'' (hpre.char6.trans h)
        · trivial

/-- An abbreviation of a literal code and an array of six-bit characters. -/
def char6Abbrev : BitCodeAbbrev :=
  [.literal 1, .encoding .Array 0, .encoding .Char6 0]

theorem char6Abbrev_read : ReadFromStream char6Abbrev :=
  ⟨{ BitcodeBytes := [99, 128, 33] },
    { BitcodeBytes := [99, 128, 33], NextChar := 3, CurWord := 0, BitsInCurWord := 2,
      CurAbbrevs := [char6Abbrev] }, by decide +kernel, rfl⟩

/-- The start of a string that is to be read with that abbreviation. -/
def char6Start (bytes : Bytes) : BitstreamCursor :=
  { BitcodeBytes := bytes, CurAbbrevs := [char6Abbrev] }

theorem skipRecord_agrees_iff_char6 :
    SkipAgrees 4 (char6Start [0xc2, 0x01, 0, 0]) ↔ RecordFits 4 (char6Start [0xc2, 0x01, 0, 0]) :=
  skipRecord_agrees_iff (At.fresh _) (fun Abbv hmem => by
    rw [List.mem_singleton.mp hmem]
    exact char6Abbrev_read) 4

/-- An array of 715827883 characters in five bytes: the product is cut to 2, and skipping the record
succeeds two bits behind the length. -/
theorem char6_array_skipped_short :
    ¬∀ (bytes : Bytes) (pos : Nat) (c : BitstreamCursor), At c.toSimpleBitstreamCursor bytes pos →
      (∀ Abbv ∈ c.CurAbbrevs, ReadFromStream Abbv) → ∀ AbbrevID, SkipAgrees AbbrevID c := by
  intro h
  have hagrees := h [107, 173, 214, 106, 5] 0 (char6Start [107, 173, 214, 106, 5]) (At.fresh _)
    (fun Abbv hmem => by
      rw [List.mem_singleton.mp hmem]
      exact char6Abbrev_read) 4
  have hskip : skipRecordExit 4 (char6Start [107, 173, 214, 106, 5]) =
      .ok ((1, .finished), { char6Start [107, 173, 214, 106, 5] with
        NextChar := 5, BitsInCurWord := 2 }) := by decide +kernel
  obtain ⟨r', c₁, hread, -⟩ := hagrees.read_of_skip 1 _ hskip false {}
  have herror : readRecord 4 false {} (char6Start [107, 173, 214, 106, 5]) =
      .error ⟨.illegal_byte_sequence, "Size is not plausible", []⟩ := by decide +kernel
  rw [herror] at hread
  cases hread

end SmlnjLlvm.Bitstream.BitstreamCursor
