import SmlnjLlvm.Bitstream.RecordPositions

/-!
# Progress of the reader

Whatever the bytes are, a call on a valid cursor keeps it valid and never moves
it back. A cursor that was moved to the end of the stream is valid too, though
its current word then holds stale bits.
-/

namespace SmlnjLlvm.Bitstream

open BitString

namespace SimpleBitstreamCursor

/-- The cursor is within the string, and its word has no bits but those it counts. -/
structure Valid (c : SimpleBitstreamCursor) : Prop where
  next_le : c.NextChar ≤ c.BitcodeBytes.length
  bits_lt : c.BitsInCurWord < 64
  bits_le : c.BitsInCurWord ≤ 8 * c.NextChar
  word_lt : c.BitsInCurWord ≠ 0 → c.CurWord.toNat < 2 ^ c.BitsInCurWord

theorem Valid.empty {c : SimpleBitstreamCursor} (hnext : c.NextChar ≤ c.BitcodeBytes.length)
    (hbits : c.BitsInCurWord = 0) : Valid c where
  next_le := hnext
  bits_lt := by omega
  bits_le := by omega
  word_lt := fun h => absurd hbits h

theorem Valid.fresh (bytes : Bytes) : Valid ⟨bytes, 0, 0, 0⟩ := Valid.empty (Nat.zero_le _) rfl

theorem Valid.pos_le {c : SimpleBitstreamCursor} (h : c.Valid) :
    c.GetCurrentBitNo ≤ size c.BitcodeBytes := by
  have hnext := h.next_le
  rw [GetCurrentBitNo, size]
  omega

/-- A valid cursor on the same string, at least `k` bits further. -/
structure Ahead (k : Nat) (c c' : SimpleBitstreamCursor) : Prop where
  bytes_eq : c'.BitcodeBytes = c.BitcodeBytes
  valid : c'.Valid
  pos_le : c.GetCurrentBitNo + k ≤ c'.GetCurrentBitNo

theorem Ahead.trans {k m : Nat} {c c' c'' : SimpleBitstreamCursor} (h : Ahead k c c')
    (h' : Ahead m c' c'') : Ahead (k + m) c c'' where
  bytes_eq := h'.bytes_eq.trans h.bytes_eq
  valid := h'.valid
  pos_le := by
    have h₁ := h.pos_le
    have h₂ := h'.pos_le
    omega

theorem Ahead.mono {k m : Nat} {c c' : SimpleBitstreamCursor} (h : Ahead k c c') (hm : m ≤ k) :
    Ahead m c c' where
  bytes_eq := h.bytes_eq
  valid := h.valid
  pos_le := by
    have h₁ := h.pos_le
    omega

theorem Valid.ahead {c : SimpleBitstreamCursor} (h : c.Valid) : Ahead 0 c c :=
  ⟨rfl, h, Nat.le_refl _⟩

variable {c : SimpleBitstreamCursor} {n : Nat}

theorem toNat_drop_lt {w : BitVec 64} {n m : Nat} (hw : w.toNat < 2 ^ m) (hn : n < 64) :
    (w >>> (n &&& 0x3f)).toNat < 2 ^ (m - n) := by
  rw [toNat_drop_bits w hn]
  by_cases hle : n ≤ m
  · rw [Nat.div_lt_iff_lt_mul (Nat.two_pow_pos n), ← Nat.pow_add, Nat.sub_add_cancel hle]
    exact hw
  · have hlt := Nat.pow_le_pow_right (by decide : 0 < 2) (Nat.le_of_not_le hle)
    rw [Nat.div_eq_of_lt (Nat.lt_of_lt_of_le hw hlt)]
    exact Nat.two_pow_pos _

theorem take_ahead (h : c.Valid) (hn : 1 ≤ n ∧ n ≤ 64) (hle : n ≤ c.BitsInCurWord) :
    Call.Wp (take n) (fun v c' => v.toNat < 2 ^ n ∧ Ahead n c c') c := by
  have hlt := h.bits_lt
  have hbits := h.bits_le
  refine ⟨?_, rfl, ⟨h.next_le, by simp only; omega, by simp only; omega, ?_⟩, ?_⟩
  · simp only
    rw [toNat_low_bits _ hn.2]
    exact Nat.mod_lt _ (Nat.two_pow_pos n)
  · intro _
    exact toNat_drop_lt (h.word_lt (by omega)) (by omega)
  · simp only [GetCurrentBitNo]
    omega

theorem Valid.read (h : c.Valid) (hn : 1 ≤ n ∧ n ≤ 64) :
    Call.Wp (Read n) (fun v c' => v.toNat < 2 ^ n ∧ Ahead n c c') c := by
  have hle := h.bits_le
  unfold Call.Wp
  by_cases hin : n ≤ c.BitsInCurWord
  · rw [Read_of_le hn hin]
    exact take_ahead h hn hin
  · by_cases hmore : c.NextChar < c.BitcodeBytes.length
    · have hfill : c.fillSize = min 8 (c.BitcodeBytes.length - c.NextChar) := rfl
      by_cases hend : n ≤ c.BitsInCurWord + c.fillSize * 8
      · obtain ⟨w, hread, hw⟩ := Read_across hn (by omega) hmore hend
        rw [hread]
        refine ⟨?_, rfl, ⟨by simp only; omega, by simp only; omega, by simp only; omega, ?_⟩, ?_⟩
        · have hlow : (if c.BitsInCurWord ≠ 0 then c.CurWord else 0).toNat <
              2 ^ c.BitsInCurWord := by
            split
            · next hne => exact h.word_lt hne
            · exact Nat.two_pow_pos _
          have hhigh : (BitVec.ofNat 64 (bitsAt c.BitcodeBytes (8 * c.NextChar)
              (n - c.BitsInCurWord))).toNat < 2 ^ (n - c.BitsInCurWord) := by
            rw [BitVec.toNat_ofNat]
            exact Nat.mod_lt_of_lt (bitsAt_lt _ _)
          have hsum := toNat_or_shiftLeft hlow hhigh (by omega)
          have hpow : 2 ^ n = 2 ^ c.BitsInCurWord * 2 ^ (n - c.BitsInCurWord) := by
            rw [← Nat.pow_add, Nat.add_sub_cancel' (by omega)]
          have hmul := Nat.mul_le_mul_left (2 ^ c.BitsInCurWord) hhigh
          rw [Nat.mul_succ] at hmul
          simp only
          omega
        · intro hne
          simp only at hne ⊢
          rw [hw hne]
          exact bitsAt_lt _ _
        · simp only [GetCurrentBitNo]
          omega
      · rw [Read_past_end hn (by omega) hmore (by omega)]
        trivial
    · rw [Read_at_end hn (by omega) (by omega)]
      trivial

theorem vbrLoop_ahead {W : Nat} (hn : 1 ≤ n ∧ n ≤ 32) (Mask : BitVec 32) (fuel : Nat) :
    ∀ {c : SimpleBitstreamCursor} (Result : BitVec W) (NextBit : Nat) (Piece : BitVec 32),
      c.Valid → size c.BitcodeBytes - c.GetCurrentBitNo < fuel →
      Call.Wp (vbrLoop W n Mask fuel Result NextBit Piece) (fun _ c' => Ahead 0 c c') c := by
  induction fuel with
  | zero =>
    intro c Result NextBit Piece _ hfuel
    exact absurd hfuel (Nat.not_lt_zero _)
  | succ fuel ih =>
    intro c Result NextBit Piece hc hfuel
    rw [vbrLoop]
    simp only
    split
    · exact hc.ahead
    · split
      · trivial
      · refine (hc.read ⟨hn.1, by omega⟩).bind fun v c' hvalue => ?_
        have hread := hvalue.2
        have hle := hread.pos_le
        have hend := hread.valid.pos_le
        rw [hread.bytes_eq] at hend
        refine (ih _ _ _ hread.valid ?_).mono fun _ c'' hrest => (hread.trans hrest).mono (by omega)
        rw [hread.bytes_eq]
        omega

theorem Valid.readVBR (h : c.Valid) (W : Nat) (hn : 1 ≤ n ∧ n ≤ 32) :
    Call.Wp (readVBRInto W n) (fun _ c' => Ahead n c c') c := by
  refine (h.read ⟨hn.1, by omega⟩).bind fun v c' hvalue => ?_
  have hread := hvalue.2
  simp only
  rw [Call.assert_of hn.symm, pure_bind]
  split
  · exact hread
  · refine Call.wp_bind.mpr ?_
    exact (vbrLoop_ahead hn _ _ _ _ _ hread.valid (Nat.lt_succ_self _)).mono
      fun _ c'' hrest => hread.trans hrest

theorem Valid.skip (h : c.Valid) :
    Call.Wp SkipToFourByteBoundary
      (fun _ c' => Ahead 0 c c' ∧ c'.GetCurrentBitNo % 8 = 0) c := by
  have hle := h.bits_le
  rw [SkipToFourByteBoundary, Call.wp_modify]
  split
  · next hhalf =>
    refine ⟨⟨rfl, ⟨h.next_le, Nat.lt_of_sub_pos (by decide : 0 < 64 - 32), ?_, ?_⟩, ?_⟩, ?_⟩
    · simp only
      omega
    · intro _
      have hword := h.word_lt (by omega)
      simp only
      rw [BitVec.toNat_ushiftRight, Nat.shiftRight_eq_div_pow,
        Nat.div_lt_iff_lt_mul (Nat.two_pow_pos _), ← Nat.pow_add, Nat.add_sub_cancel' hhalf]
      exact hword
    · simp only [GetCurrentBitNo]
      omega
    · simp only [GetCurrentBitNo]
      omega
  · refine ⟨⟨rfl, Valid.empty h.next_le rfl, ?_⟩, ?_⟩
    · simp only [GetCurrentBitNo]
      omega
    · simp only [GetCurrentBitNo]
      omega

theorem Valid.skipToEnd (h : c.Valid) : Call.Wp skipToEnd (fun _ c' => Ahead 0 c c') c := by
  have hnext := h.next_le
  have hle := h.bits_le
  refine ⟨rfl, ⟨Nat.le_refl _, h.bits_lt, by simp only; omega, h.word_lt⟩, ?_⟩
  simp only [GetCurrentBitNo]
  omega

theorem jump_ahead {b : Nat} (hb : c.GetCurrentBitNo ≤ b)
    (hcan : c.canSkipToPos (b / 8 / 8 * 8)) :
    Call.Wp (JumpToBit b) (fun _ c' => Ahead 0 c c') c := by
  have hword : Valid { c with NextChar := b / 8 / 8 * 8, BitsInCurWord := 0 } :=
    Valid.empty hcan rfl
  unfold Call.Wp
  rw [JumpToBit_run hcan]
  split
  · next hne =>
    refine (hword.read (n := b % 64) (by omega)).bind (Q := fun _ c' => Ahead 0 c c')
      fun v c' hvalue => ?_
    have hread := hvalue.2
    have hle := hread.pos_le
    refine ⟨hread.bytes_eq, hread.valid, ?_⟩
    simp only [GetCurrentBitNo] at hb hle ⊢
    omega
  · next hz =>
    refine ⟨rfl, hword, ?_⟩
    simp only [GetCurrentBitNo] at hb ⊢
    omega

end SimpleBitstreamCursor

namespace BitstreamCursor

variable {α : Type} {c : BitstreamCursor}

/-- The same scope, with the cursor at least `k` bits further. -/
structure Onward (k : Nat) (c c' : BitstreamCursor) : Prop where
  position : SimpleBitstreamCursor.Ahead k c.toSimpleBitstreamCursor c'.toSimpleBitstreamCursor
  scope_eq : c'.scope = c.scope

theorem Onward.trans {k m : Nat} {c c' c'' : BitstreamCursor} (h : Onward k c c')
    (h' : Onward m c' c'') : Onward (k + m) c c'' :=
  ⟨h.position.trans h'.position, h'.scope_eq.trans h.scope_eq⟩

theorem Onward.mono {k m : Nat} {c c' : BitstreamCursor} (h : Onward k c c') (hm : m ≤ k) :
    Onward m c c' := ⟨h.position.mono hm, h.scope_eq⟩

theorem Onward.after {k m : Nat} {c c' c'' : BitstreamCursor} (h : Onward k c c')
    (h' : Onward m c' c'') : Onward 0 c c'' := (h.trans h').mono (Nat.zero_le _)

theorem onward_self (h : c.Valid) : Onward 0 c c := ⟨h.ahead, rfl⟩

theorem wp_bits {m : SimpleBitstreamCursor.Run α} {Q : α → BitstreamCursor → Prop}
    (h : Call.Wp m (fun a s => Q a { c with toSimpleBitstreamCursor := s })
      c.toSimpleBitstreamCursor) : Call.Wp (bits m) Q c := by
  unfold Call.Wp at h ⊢
  rw [bits]
  cases hm : m c.toSimpleBitstreamCursor <;> rw [hm] at h
  case ok r => exact h
  case error e => trivial
  case stuck => exact h

theorem wp_Read (h : c.Valid) {n : Nat} (hn : 1 ≤ n ∧ n ≤ 64) :
    Call.Wp (Read n) (fun v c' => v.toNat < 2 ^ n ∧ Onward n c c') c :=
  wp_bits ((h.read hn).mono fun _ _ hs => ⟨hs.1, hs.2, rfl⟩)

theorem wp_ReadVBR (h : c.Valid) {n : Nat} (hn : 1 ≤ n ∧ n ≤ 32) :
    Call.Wp (ReadVBR n) (fun _ c' => Onward n c c') c :=
  wp_bits ((h.readVBR 32 hn).mono fun _ _ hs => ⟨hs, rfl⟩)

theorem wp_ReadVBR64 (h : c.Valid) {n : Nat} (hn : 1 ≤ n ∧ n ≤ 32) :
    Call.Wp (ReadVBR64 n) (fun _ c' => Onward n c c') c :=
  wp_bits ((h.readVBR 64 hn).mono fun _ _ hs => ⟨hs, rfl⟩)

theorem wp_Skip (h : c.Valid) :
    Call.Wp SkipToFourByteBoundary
      (fun _ c' => Onward 0 c c' ∧ c'.GetCurrentBitNo % 8 = 0) c :=
  wp_bits (h.skip.mono fun _ _ hs => ⟨⟨hs.1, rfl⟩, hs.2⟩)

theorem wp_skipToEnd (h : c.Valid) : Call.Wp skipToEnd (fun _ c' => Onward 0 c c') c :=
  wp_bits (h.skipToEnd.mono fun _ _ hs => ⟨hs, rfl⟩)

theorem wp_JumpToBit {b : Nat} (hb : c.GetCurrentBitNo ≤ b)
    (hcan : c.canSkipToPos (b / 8 / 8 * 8)) :
    Call.Wp (JumpToBit b) (fun _ c' => Onward 0 c c') c :=
  wp_bits ((SimpleBitstreamCursor.jump_ahead hb hcan).mono fun _ _ hs => ⟨hs, rfl⟩)

/-- A read of at least one bit from every valid cursor. -/
def Steps (read : Run (BitVec 64)) : Prop :=
  ∀ c : BitstreamCursor, c.Valid → Call.Wp read (fun _ c' => Onward 1 c c') c

theorem steps_Read {n : Nat} (hn : 1 ≤ n ∧ n ≤ 64) : Steps (Read n) :=
  fun _ hc => (wp_Read hc hn).mono fun _ _ h => h.2.mono hn.1

theorem steps_ReadVBR64 {n : Nat} (hn : 1 ≤ n ∧ n ≤ 32) : Steps (ReadVBR64 n) :=
  fun _ hc => (wp_ReadVBR64 hc hn).mono fun _ _ h => h.mono hn.1

theorem steps_char6 : Steps readChar6 := by
  intro c hc
  refine (wp_Read hc (by decide)).bind fun v c' hread => ?_
  obtain ⟨v', hv'⟩ := DecodeChar6_of_lt (toNat_six_bits hread.1)
  rw [hv']
  exact hread.2.mono (by decide)

theorem steps_field {Op : BitCodeAbbrevOp} (hop : Op.WellFormed)
    (hfield : BitCodeAbbrevOp.IsField Op) : Steps (readAbbreviatedField Op) := by
  cases Op with
  | literal Val => exact hfield.elim
  | encoding Enc Val =>
    cases Enc with
    | Fixed =>
      have hwidth := toNat_width hop
      rw [readAbbreviatedField, assert_bind (by rw [hwidth]; exact hop.2), hwidth]
      exact steps_Read ⟨hop.1, by have := hop.2; omega⟩
    | VBR =>
      have hwidth := toNat_width hop
      rw [readAbbreviatedField, assert_bind (by rw [hwidth]; exact hop.2), hwidth]
      exact steps_ReadVBR64 hop
    | Char6 => exact steps_char6
    | Array => exact hfield.elim
    | Blob => exact hfield.elim

theorem wp_skipMany {read : Run (BitVec 64)} (hread : Steps read) {n : Nat} :
    ∀ {c : BitstreamCursor}, c.Valid →
      Call.Wp (skipMany read n) (fun _ c' => Onward 0 c c') c := by
  induction n with
  | zero => exact fun hc => onward_self hc
  | succ n ih =>
    intro c hc
    exact (hread c hc).bind fun v c' hstep =>
      (ih hstep.position.valid).mono fun _ _ hrest => hstep.after hrest

theorem wp_readMany {read : Run (BitVec 64)} (hread : Steps read) {n : Nat} :
    ∀ {c : BitstreamCursor} (r : RecordData), c.Valid →
      Call.Wp (readMany read n r) (fun _ c' => Onward 0 c c') c := by
  induction n with
  | zero => exact fun _ hc => onward_self hc
  | succ n ih =>
    intro c r hc
    exact (hread c hc).bind fun v c' hstep =>
      (ih _ hstep.position.valid).mono fun _ _ hrest => hstep.after hrest

/-! ## Reading a record -/

theorem wp_readPlausibleSize (hc : c.Valid) :
    Call.Wp readPlausibleSize (fun _ c' => Onward 0 c c') c := by
  have hread := wp_ReadVBR hc (n := 6) (by decide)
  have hsize : Call.Wp readSize (fun _ c' => Onward 0 c c') c := by
    unfold Call.Wp at hread ⊢
    rw [readSize]
    cases hrun : ReadVBR 6 c <;> rw [hrun] at hread
    case ok r => exact Onward.mono hread (Nat.zero_le _)
    case error e => trivial
    case stuck => exact hread
  refine hsize.bind fun NumElts c' honward => ?_
  rw [Call.wp_bind, Call.wp_get]
  split
  · exact honward
  · trivial

theorem wp_readArray (hc : c.Valid) {EltEnc : BitCodeAbbrevOp} (helt : EltEnc.WellFormed)
    (NumElts : BitVec 32) (r : RecordData) :
    Call.Wp (readArray NumElts r EltEnc) (fun _ c' => Onward 0 c c') c := by
  cases EltEnc with
  | literal Val => trivial
  | encoding Enc Val =>
    cases Enc with
    | Fixed =>
      rw [readArray, toNat_width helt]
      exact wp_readMany (steps_Read ⟨helt.1, by have := helt.2; omega⟩) r hc
    | VBR =>
      rw [readArray, toNat_width helt]
      exact wp_readMany (steps_ReadVBR64 helt) r hc
    | Array => trivial
    | Char6 => exact wp_readMany steps_char6 r hc
    | Blob => trivial

theorem wp_blobAt (hc : c.Valid) {q n : Nat} (hmod : q % 8 = 0)
    (hcan : c.canSkipToPos ((q + Alignment.roundUp n 4 * 8) / 8)) :
    Call.Wp (blobAt q n) (fun _ c' => Onward 0 c c') c := by
  have hround := Alignment.le_roundUp n (a := 4) (by decide)
  rw [SimpleBitstreamCursor.canSkipToPos] at hcan
  unfold Call.Wp
  rw [blobAt, if_pos hmod, slice_of_le (by omega)]
  exact onward_self hc

theorem wp_readOperands (wanted : Bool) {Ops : List BitCodeAbbrevOp} :
    ∀ {c : BitstreamCursor} (r : RecordData), c.Valid → (∀ Op ∈ Ops, Op.WellFormed) →
      Call.Wp (readOperands wanted Ops r) (fun _ c' => Onward 0 c c') c := by
  induction Ops with
  | nil => exact fun _ hc _ => onward_self hc
  | cons Op Ops ih =>
    intro c r hc hwf
    have hop := hwf Op (List.mem_cons_self ..)
    have hwf' : ∀ Op ∈ Ops, Op.WellFormed := fun Op hop => hwf Op (List.mem_cons_of_mem _ hop)
    have hfield (hisField : BitCodeAbbrevOp.IsField Op) :
        Call.Wp (readOperands wanted (Op :: Ops) r) (fun _ c' => Onward 0 c c') c := by
      rw [readOperands_field hisField]
      exact (steps_field hop hisField c hc).bind fun v c' hstep =>
        (ih _ hstep.position.valid hwf').mono fun _ _ hrest => hstep.after hrest
    cases Op with
    | literal Val => exact ih _ hc hwf'
    | encoding Enc Val =>
      cases Enc with
      | Fixed => exact hfield trivial
      | VBR => exact hfield trivial
      | Char6 => exact hfield trivial
      | Array =>
        rw [readOperands]
        refine (wp_readPlausibleSize hc).bind fun NumElts c₁ h₁ => ?_
        by_cases hlen : Ops.length = 1
        · obtain ⟨EltEnc, rfl⟩ := List.length_eq_one_iff.mp hlen
          rw [if_neg (not_not.mpr hlen)]
          refine (wp_readArray h₁.position.valid (hwf' EltEnc (List.mem_cons_self ..))
            NumElts r).bind fun r' c₂ h₂ => ?_
          exact h₁.after h₂
        · rw [if_pos hlen]
          trivial
      | Blob =>
        rw [readOperands]
        refine (wp_ReadVBR hc (by decide)).bind fun NumElts c₁ h₁ => ?_
        refine (wp_Skip h₁.position.valid).bind fun _ c₂ h₂ => ?_
        rw [Call.wp_bind, Call.wp_get]
        by_cases hcan : c₂.canSkipToPos
            ((c₂.GetCurrentBitNo + Alignment.roundUp NumElts.toNat 4 * 8) / 8)
        · rw [if_neg (not_not.mpr hcan)]
          have hword : c₂.canSkipToPos
              ((c₂.GetCurrentBitNo + Alignment.roundUp NumElts.toNat 4 * 8) / 8 / 8 * 8) :=
            Nat.le_trans (Nat.div_mul_le_self _ _) hcan
          refine (wp_JumpToBit (Nat.le_add_right ..) hword).bind fun _ c₃ h₃ => ?_
          have hcan₃ : c₃.canSkipToPos
              ((c₂.GetCurrentBitNo + Alignment.roundUp NumElts.toNat 4 * 8) / 8) := by
            rw [SimpleBitstreamCursor.canSkipToPos, h₃.position.bytes_eq]
            exact hcan
          refine (wp_blobAt h₃.position.valid h₂.2 hcan₃).bind fun bytes c₄ h₄ => ?_
          exact (ih _ h₄.position.valid hwf').mono fun _ _ hrest =>
            (((h₁.trans h₂.1).trans h₃).trans h₄).after hrest
        · rw [if_pos hcan]
          trivial

theorem wp_readCode (hc : c.Valid) {CodeOp : BitCodeAbbrevOp} (hop : CodeOp.WellFormed) :
    Call.Wp (readCode CodeOp) (fun _ c' => Onward 0 c c') c := by
  cases CodeOp with
  | literal Val => exact onward_self hc
  | encoding Enc Val =>
    have hfield (hisField : BitCodeAbbrevOp.IsField (.encoding Enc Val)) :
        Call.Wp (do
          let MaybeCode ← readAbbreviatedField (.encoding Enc Val)
          pure (MaybeCode.setWidth 32) : Run (BitVec 32)) (fun _ c' => Onward 0 c c') c :=
      (steps_field hop hisField c hc).bind fun v c' h => h.mono (Nat.zero_le _)
    cases Enc with
    | Fixed => exact hfield trivial
    | VBR => exact hfield trivial
    | Char6 => exact hfield trivial
    | Array => trivial
    | Blob => trivial

theorem wp_getAbbrev (hwf : ∀ Abbv ∈ c.CurAbbrevs, WellFormedAbbrev Abbv)
    (AbbrevID : BitVec 32) :
    Call.Wp (getAbbrev AbbrevID) (fun Abbv c' => WellFormedAbbrev Abbv ∧ c' = c) c := by
  rw [getAbbrev, Call.wp_bind, Call.wp_get]
  cases hget : c.CurAbbrevs[(AbbrevID - .ofNat 32 bitc.FIRST_APPLICATION_ABBREV).toNat]? with
  | none => trivial
  | some Abbv => exact ⟨hwf Abbv (List.mem_of_getElem? hget), rfl⟩

theorem wp_readRecord (hc : c.Valid) (hwf : ∀ Abbv ∈ c.CurAbbrevs, WellFormedAbbrev Abbv)
    (AbbrevID : BitVec 32) (wanted : Bool) (r : RecordData) :
    Call.Wp (readRecord AbbrevID wanted r) (fun _ c' => Onward 0 c c') c := by
  unfold readRecord
  split
  · refine (wp_ReadVBR hc (by decide)).bind fun Code c₁ h₁ => ?_
    refine (wp_readPlausibleSize h₁.position.valid).bind fun NumElts c₂ h₂ => ?_
    refine (wp_readMany (steps_ReadVBR64 (by decide)) r h₂.position.valid).bind fun r' c₃ h₃ => ?_
    exact (h₁.trans h₂).after h₃
  · refine (wp_getAbbrev hwf AbbrevID).bind fun Abbv c' h => ?_
    obtain ⟨hAbbv, rfl⟩ := h
    cases Abbv with
    | nil => exact absurd rfl hAbbv.1
    | cons CodeOp Ops =>
      refine (wp_readCode hc (hAbbv.2 CodeOp (List.mem_cons_self ..))).bind fun Code c₁ h₁ => ?_
      refine (wp_readOperands wanted r h₁.position.valid fun Op hop =>
        hAbbv.2 Op (List.mem_cons_of_mem _ hop)).bind fun r' c₂ h₂ => ?_
      exact h₁.after h₂

end BitstreamCursor

end SmlnjLlvm.Bitstream
