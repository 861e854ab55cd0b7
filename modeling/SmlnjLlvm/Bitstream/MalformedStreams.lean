import SmlnjLlvm.Bitstream.ReaderProgress

/-!
# The reader on arbitrary bytes

Runs of reader calls on a fresh cursor over any byte string. No assertion
fails, no access is out of bounds and every loop ends, apart from what
`skipRecord` does with arrays that `readRecord` would reject, and from the name
of a record that the block of block information gives without its number.
-/

namespace SmlnjLlvm.Bitstream.BitstreamCursor

open BitString

variable {c : BitstreamCursor}

/-! ## Skipping a record -/

/-- Decode the operands before the first array and its length, and return the length with the
operands that follow. -/
def firstArray : List BitCodeAbbrevOp → Run (Option (BitVec 32 × List BitCodeAbbrevOp))
  | [] => pure none
  | .literal _ :: Ops => firstArray Ops
  | .encoding .Array _ :: Ops => do
      let NumElts ← ReadVBR 6
      pure (some (NumElts, Ops))
  | .encoding .Blob _ :: Ops => do
      let NumElts ← ReadVBR 6
      SkipToFourByteBoundary
      let c ← get
      let NewEnd := c.GetCurrentBitNo + Alignment.roundUp NumElts.toNat 4 * 8
      if ¬c.canSkipToPos (NewEnd / 8) then
        pure none
      else
        JumpToBit NewEnd
        firstArray Ops
  | Op :: Ops => do
      let _ ← readAbbreviatedField Op
      firstArray Ops

def firstArrayOf (AbbrevID : BitVec 32) : Run (Option (BitVec 32 × List BitCodeAbbrevOp)) := do
  if AbbrevID.toNat = bitc.UNABBREV_RECORD then
    pure none
  else
    let Abbv ← getAbbrev AbbrevID
    match Abbv with
    | [] => pure none
    | CodeOp :: Ops =>
      let _ ← readCode CodeOp
      firstArray Ops

/-- An array that `skipRecord` can skip: one operand follows, it is an encoding, and a jump over
elements of a fixed width leads to a word that begins within the string. -/
def ArraySkippable (NumElts : BitVec 32) (c : BitstreamCursor) : List BitCodeAbbrevOp → Prop
  | [.encoding .Fixed Val] =>
    c.canSkipToPos ((c.GetCurrentBitNo + NumElts.toNat * Val.toNat) / 64 * 8)
  | [.encoding .Char6 _] => c.canSkipToPos ((c.GetCurrentBitNo + (NumElts * 6).toNat) / 64 * 8)
  | [.encoding _ _] => True
  | _ => False

/-- The array of the record at the cursor, if it has one, can be skipped. -/
def SkipGuard (AbbrevID : BitVec 32) (c : BitstreamCursor) : Prop :=
  ∀ NumElts Ops c', firstArrayOf AbbrevID c = .ok (some (NumElts, Ops), c') →
    ArraySkippable NumElts c' Ops

theorem firstArray_field {Op : BitCodeAbbrevOp} (hop : BitCodeAbbrevOp.IsField Op)
    (Ops : List BitCodeAbbrevOp) :
    firstArray (Op :: Ops) = (do
      let _ ← readAbbreviatedField Op
      firstArray Ops) := by
  cases Op with
  | literal Val => exact hop.elim
  | encoding Enc Val => cases Enc <;> first | rfl | exact hop.elim

variable {NumElts : BitVec 32} {Ops : List BitCodeAbbrevOp} {c' : BitstreamCursor}
  {info : BitstreamBlockInfo} {k : Nat}

theorem ArraySkippable.single (h : ArraySkippable NumElts c Ops) : ∃ EltEnc, Ops = [EltEnc] := by
  cases Ops with
  | nil => exact h.elim
  | cons Op Ops =>
    cases Ops with
    | nil => exact ⟨Op, rfl⟩
    | cons Op' Ops =>
      cases Op with
      | literal Val => exact h.elim
      | encoding Enc Val => cases Enc <;> exact h.elim

theorem wp_skipArray (hc : c.Valid) {EltEnc : BitCodeAbbrevOp} (helt : EltEnc.WellFormed)
    (hskip : ArraySkippable NumElts c [EltEnc]) :
    Call.Wp (skipArray NumElts EltEnc) (fun _ c' => Onward 0 c c') c := by
  have hjump {b : Nat} (hb : c.GetCurrentBitNo ≤ b) (hcan : c.canSkipToPos (b / 64 * 8)) :
      Call.Wp (JumpToBit b) (fun _ c' => Onward 0 c c') c := by
    refine wp_JumpToBit hb ?_
    rwa [Nat.div_div_eq_div_mul]
  cases EltEnc with
  | literal Val => exact hskip.elim
  | encoding Enc Val =>
    cases Enc with
    | Fixed =>
      rw [skipArray, assert_bind (by rw [toNat_width helt]; exact helt.2), Call.wp_bind,
        Call.wp_get]
      exact hjump (Nat.le_add_right ..) hskip
    | VBR =>
      rw [skipArray, assert_bind (by rw [toNat_width helt]; exact helt.2), toNat_width helt]
      exact wp_skipMany (steps_ReadVBR64 helt) hc
    | Array => trivial
    | Char6 =>
      rw [skipArray, Call.wp_bind, Call.wp_get]
      exact hjump (Nat.le_add_right ..) hskip
    | Blob => trivial

theorem wp_skipOperands :
    ∀ {c : BitstreamCursor}, c.Valid → (∀ Op ∈ Ops, Op.WellFormed) →
      (∀ NumElts Ops' c', firstArray Ops c = .ok (some (NumElts, Ops'), c') →
        ArraySkippable NumElts c' Ops') →
      Call.Wp (skipOperands Ops) (fun _ c' => Onward 0 c c') c := by
  induction Ops with
  | nil => exact fun hc _ _ => onward_self hc
  | cons Op Ops ih =>
    intro c hc hwf hguard
    have hop := hwf Op (List.mem_cons_self ..)
    have hwf' : ∀ Op ∈ Ops, Op.WellFormed := fun Op hop => hwf Op (List.mem_cons_of_mem _ hop)
    have hfield (hisField : BitCodeAbbrevOp.IsField Op) :
        Call.Wp (skipOperands (Op :: Ops)) (fun _ c' => Onward 0 c c') c := by
      rw [skipOperands_field hisField]
      refine (steps_field hop hisField c hc).bind_run fun v c₁ hrun hstep => ?_
      refine (ih hstep.position.valid hwf' fun NumElts Ops' c' h => ?_).mono
        fun _ _ hrest => hstep.after hrest
      refine hguard NumElts Ops' c' ?_
      rw [firstArray_field hisField, Call.bind_of_ok hrun, h]
    cases Op with
    | literal Val => exact ih hc hwf' hguard
    | encoding Enc Val =>
      cases Enc with
      | Fixed => exact hfield trivial
      | VBR => exact hfield trivial
      | Char6 => exact hfield trivial
      | Array =>
        rw [skipOperands]
        refine (wp_ReadVBR hc (by decide)).bind_run fun NumElts c₁ hrun h₁ => ?_
        have hskip : ArraySkippable NumElts c₁ Ops := by
          refine hguard NumElts Ops c₁ ?_
          rw [firstArray, Call.bind_of_ok hrun, Call.pure_run]
        obtain ⟨EltEnc, rfl⟩ := hskip.single
        rw [assert_bind (List.length_singleton ..)]
        exact (wp_skipArray h₁.position.valid (hwf' EltEnc (List.mem_cons_self ..))
          hskip).bind fun _ c₂ h₂ => h₁.after h₂
      | Blob =>
        rw [skipOperands]
        refine (wp_ReadVBR hc (by decide)).bind_run fun NumElts c₁ hread h₁ => ?_
        refine (wp_Skip h₁.position.valid).bind_run fun _ c₂ hskip h₂ => ?_
        rw [Call.wp_bind, Call.wp_get]
        by_cases hcan : c₂.canSkipToPos
            ((c₂.GetCurrentBitNo + Alignment.roundUp NumElts.toNat 4 * 8) / 8)
        · rw [if_neg (not_not.mpr hcan)]
          have hword : c₂.canSkipToPos
              ((c₂.GetCurrentBitNo + Alignment.roundUp NumElts.toNat 4 * 8) / 8 / 8 * 8) :=
            Nat.le_trans (Nat.div_mul_le_self _ _) hcan
          refine (wp_JumpToBit (Nat.le_add_right ..) hword).bind_run fun _ c₃ hjump h₃ => ?_
          refine (ih h₃.position.valid hwf' fun NumElts' Ops' c' h => ?_).mono
            fun _ _ hrest => ((h₁.trans h₂.1).trans h₃).after hrest
          refine hguard NumElts' Ops' c' ?_
          rw [firstArray, Call.bind_of_ok hread, Call.bind_of_ok hskip,
            Call.bind_of_ok (Call.get_run c₂), if_neg (not_not.mpr hcan),
            Call.bind_of_ok hjump, h]
        · rw [if_pos hcan]
          exact (wp_skipToEnd h₂.1.position.valid).bind fun _ c₃ h₃ =>
            (h₁.trans h₂.1).after h₃

theorem wp_skipRecord (hc : c.Valid) (hwf : ∀ Abbv ∈ c.CurAbbrevs, WellFormedAbbrev Abbv)
    {AbbrevID : BitVec 32} (hguard : SkipGuard AbbrevID c) :
    Call.Wp (skipRecord AbbrevID) (fun _ c' => Onward 0 c c') c := by
  rw [skipRecord, map_eq_pure_bind]
  suffices h : Call.Wp (skipRecordExit AbbrevID) (fun _ c' => Onward 0 c c') c from
    h.bind fun _ _ h' => h'
  unfold skipRecordExit
  by_cases hid : AbbrevID.toNat = bitc.UNABBREV_RECORD
  · rw [if_pos hid]
    refine (wp_ReadVBR hc (by decide)).bind fun Code c₁ h₁ => ?_
    refine (wp_ReadVBR h₁.position.valid (by decide)).bind fun NumElts c₂ h₂ => ?_
    refine (wp_skipMany (steps_ReadVBR64 (by decide)) h₂.position.valid).bind fun _ c₃ h₃ => ?_
    exact (h₁.trans h₂).after h₃
  · rw [if_neg hid]
    refine (wp_getAbbrev hwf AbbrevID).bind_run fun Abbv c' habbrev h => ?_
    obtain ⟨hAbbv, rfl⟩ := h
    cases Abbv with
    | nil => exact absurd rfl hAbbv.1
    | cons CodeOp Ops =>
      refine (wp_readCode hc (hAbbv.2 CodeOp (List.mem_cons_self ..))).bind_run
        fun Code c₁ hcode h₁ => ?_
      refine (wp_skipOperands h₁.position.valid (fun Op hop =>
        hAbbv.2 Op (List.mem_cons_of_mem _ hop)) fun NumElts Ops' c'' h => ?_).bind
          fun exit c₂ h₂ => h₁.after h₂
      refine hguard NumElts Ops' c'' ?_
      rw [firstArrayOf, if_neg hid, Call.bind_of_ok habbrev]
      exact (Call.bind_of_ok hcode).trans h

theorem JumpToBit_stuck {b : Nat} (hcan : ¬c.canSkipToPos (b / 64 * 8)) :
    JumpToBit b c = .stuck := by
  have hassert : ¬c.canSkipToPos (b / 8 / 8 * 8) := by
    rwa [Nat.div_div_eq_div_mul]
  have hrun : SimpleBitstreamCursor.JumpToBit b c.toSimpleBitstreamCursor = .stuck := by
    rw [SimpleBitstreamCursor.JumpToBit, Call.bind_of_ok (Call.get_run _)]
    refine Call.bind_of_stuck ?_
    rw [Call.assert, if_neg hassert, Call.stuck_run]
  rw [JumpToBit, bits, hrun]
  rfl

theorem skipArray_stuck {EltEnc : BitCodeAbbrevOp} (helt : EltEnc.WellFormed)
    (h : ¬ArraySkippable NumElts c [EltEnc]) : skipArray NumElts EltEnc c = .stuck := by
  cases EltEnc with
  | literal Val => rfl
  | encoding Enc Val =>
    cases Enc with
    | Fixed =>
      rw [skipArray, assert_bind (by rw [toNat_width helt]; exact helt.2),
        Call.bind_of_ok (Call.get_run c)]
      exact JumpToBit_stuck h
    | Char6 =>
      rw [skipArray, Call.bind_of_ok (Call.get_run c)]
      exact JumpToBit_stuck h
    | VBR => exact absurd trivial h
    | Array => exact absurd trivial h
    | Blob => exact absurd trivial h

theorem skipOperands_stuck :
    ∀ {c c' : BitstreamCursor} {NumElts : BitVec 32} {Ops' : List BitCodeAbbrevOp},
      (∀ Op ∈ Ops, Op.WellFormed) → firstArray Ops c = .ok (some (NumElts, Ops'), c') →
      ¬ArraySkippable NumElts c' Ops' → skipOperands Ops c = .stuck := by
  induction Ops with
  | nil =>
    intro c c' NumElts Ops' _ h
    cases h
  | cons Op Ops ih =>
    intro c c' NumElts Ops' hwf h hskip
    have hwf' : ∀ Op ∈ Ops, Op.WellFormed := fun Op hop => hwf Op (List.mem_cons_of_mem _ hop)
    have hfield (hisField : BitCodeAbbrevOp.IsField Op) : skipOperands (Op :: Ops) c = .stuck := by
      rw [firstArray_field hisField] at h
      obtain ⟨v, c₁, hread, hrest⟩ := Call.bind_eq_ok.mp h
      rw [skipOperands_field hisField, Call.bind_of_ok hread]
      exact ih hwf' hrest hskip
    cases Op with
    | literal Val => exact ih hwf' h hskip
    | encoding Enc Val =>
      cases Enc with
      | Fixed => exact hfield trivial
      | VBR => exact hfield trivial
      | Char6 => exact hfield trivial
      | Array =>
        obtain ⟨n, c₁, hread, hpure⟩ := Call.bind_eq_ok.mp h
        cases hpure
        rw [skipOperands, Call.bind_of_ok hread]
        by_cases hlen : Ops.length = 1
        · obtain ⟨EltEnc, rfl⟩ := List.length_eq_one_iff.mp hlen
          rw [assert_bind hlen]
          exact Call.bind_of_stuck
            (skipArray_stuck (hwf' EltEnc (List.mem_cons_self ..)) hskip)
        · refine Call.bind_of_stuck ?_
          rw [Call.assert, if_neg hlen, Call.stuck_run]
      | Blob =>
        obtain ⟨n, c₁, hread, hrest⟩ := Call.bind_eq_ok.mp h
        obtain ⟨_, c₂, hboundary, hrest⟩ := Call.bind_eq_ok.mp hrest
        rw [Call.bind_of_ok (Call.get_run c₂)] at hrest
        rw [skipOperands, Call.bind_of_ok hread, Call.bind_of_ok hboundary,
          Call.bind_of_ok (Call.get_run c₂)]
        by_cases hcan : c₂.canSkipToPos
            ((c₂.GetCurrentBitNo + Alignment.roundUp n.toNat 4 * 8) / 8)
        · rw [if_neg (not_not.mpr hcan)] at hrest ⊢
          obtain ⟨_, c₃, hjump, hrest⟩ := Call.bind_eq_ok.mp hrest
          rw [Call.bind_of_ok hjump]
          exact ih hwf' hrest hskip
        · rw [if_pos hcan] at hrest
          cases hrest

theorem skipRecord_has_outcome_iff (hc : c.Valid)
    (hwf : ∀ Abbv ∈ c.CurAbbrevs, WellFormedAbbrev Abbv) (AbbrevID : BitVec 32) :
    skipRecord AbbrevID c ≠ .stuck ↔ SkipGuard AbbrevID c := by
  constructor
  · intro hrun NumElts Ops' c' h
    by_contra hskip
    unfold firstArrayOf at h
    split at h
    · cases h
    · next hid =>
      obtain ⟨Abbv, c₁, habbrev, h⟩ := Call.bind_eq_ok.mp h
      have hAbbv := (wp_getAbbrev hwf AbbrevID).of_ok habbrev
      obtain ⟨hAbbv, rfl⟩ := hAbbv
      cases Abbv with
      | nil => exact absurd rfl hAbbv.1
      | cons CodeOp Ops =>
        obtain ⟨Code, c₂, hcode, h⟩ := Call.bind_eq_ok.mp h
        have hstuck := skipOperands_stuck (fun Op hop =>
          hAbbv.2 Op (List.mem_cons_of_mem _ hop)) h hskip
        apply hrun
        rw [skipRecord, map_eq_pure_bind]
        refine Call.bind_of_stuck ?_
        rw [skipRecordExit, if_neg hid, Call.bind_of_ok habbrev]
        exact (Call.bind_of_ok hcode).trans (Call.bind_of_stuck hstuck)
  · exact fun hguard => (wp_skipRecord hc hwf hguard).ne_stuck

/-- An array without its element type. -/
theorem skipRecord_has_outcome_iff_trailing :
    ¬SkipGuard 4 { BitcodeBytes := [0], CurAbbrevs := [[.literal 1, .encoding .Array 0]] } := by
  refine (not_congr (skipRecord_has_outcome_iff (.empty (Nat.zero_le _) rfl) ?_ 4)).mp
    (not_not.mpr (by decide +kernel))
  simp [WellFormedAbbrev, BitCodeAbbrevOp.WellFormed]

def WellFormedInfo (I : BitstreamBlockInfo) : Prop :=
  ∀ R ∈ I.BlockInfoRecords, ∀ Abbv ∈ R.Abbrevs, WellFormedAbbrev Abbv

/-- The widths and abbreviations of the current block, of the blocks around it and of the block
information. -/
structure WellScoped (c : BitstreamCursor) : Prop where
  code : 1 ≤ c.CurCodeSize ∧ c.CurCodeSize ≤ MaxChunkSize
  abbrevs : ∀ Abbv ∈ c.CurAbbrevs, WellFormedAbbrev Abbv
  blocks : ∀ B ∈ c.BlockScope, (1 ≤ B.PrevCodeSize ∧ B.PrevCodeSize ≤ MaxChunkSize) ∧
    ∀ Abbv ∈ B.PrevAbbrevs, WellFormedAbbrev Abbv
  info : ∀ I, c.BlockInfo = some I → WellFormedInfo I

theorem WellScoped.of_scope_eq (h : WellScoped c) (hscope : c'.scope = c.scope) :
    WellScoped c' := by
  simp only [scope, Prod.mk.injEq] at hscope
  obtain ⟨hcode, habbrevs, hblocks, hinfo⟩ := hscope
  refine ⟨?_, ?_, ?_, ?_⟩
  · rw [hcode]
    exact h.code
  · rw [habbrevs]
    exact h.abbrevs
  · rw [hblocks]
    exact h.blocks
  · rw [hinfo]
    exact h.info

/-- What every call of the reader starts from. -/
structure Sound (c : BitstreamCursor) : Prop where
  valid : c.Valid
  wellScoped : WellScoped c

/-- The cursor of a byte string before the first call. -/
def fresh (bytes : Bytes) : BitstreamCursor := { BitcodeBytes := bytes }

theorem Sound.fresh (bytes : Bytes) : Sound (fresh bytes) where
  valid := SimpleBitstreamCursor.Valid.fresh bytes
  wellScoped := ⟨(by decide : 1 ≤ 2 ∧ 2 ≤ 32), fun _ h => absurd h List.not_mem_nil, fun _ h => absurd h List.not_mem_nil,
    fun _ h => by cases h⟩

/-- A sound cursor on the same string, at least `k` bits further. -/
structure Later (k : Nat) (c c' : BitstreamCursor) : Prop where
  sound : Sound c'
  position : SimpleBitstreamCursor.Ahead k c.toSimpleBitstreamCursor c'.toSimpleBitstreamCursor

theorem Later.trans {m : Nat} {c c'' : BitstreamCursor} (h : Later k c c') (h' : Later m c' c'') :
    Later (k + m) c c'' := ⟨h'.sound, h.position.trans h'.position⟩

theorem Later.mono {m : Nat} {c : BitstreamCursor} (h : Later k c c') (hm : m ≤ k) :
    Later m c c' := ⟨h.sound, h.position.mono hm⟩

theorem Sound.onward {c : BitstreamCursor} (h : Sound c) (h' : Onward k c c') :
    Later k c c' := ⟨⟨h'.position.valid, h.wellScoped.of_scope_eq h'.scope_eq⟩, h'.position⟩

theorem Sound.later (h : Sound c) : Later 0 c c := h.onward (onward_self h.valid)

theorem Later.bitsLeft_lt (h : Later 1 c c') : c'.bitsLeft < c.bitsLeft := by
  have hle := h.position.pos_le
  have hend := h.sound.valid.pos_le
  rw [h.position.bytes_eq] at hend
  rw [bitsLeft, bitsLeft, h.position.bytes_eq]
  omega

theorem wp_readAbbrevOp (hc : c.Valid) : Call.Wp readAbbrevOp (fun _ c' => Onward 0 c c') c := by
  refine (wp_Read hc (by decide)).bind fun IsLiteral c₁ hflag => ?_
  have h₁ := hflag.2
  split
  · exact (wp_ReadVBR64 h₁.position.valid (by decide)).bind fun v c₂ h₂ => h₁.after h₂
  · refine (wp_Read h₁.position.valid (by decide)).bind fun MaybeEncoding c₂ hthree => ?_
    have h₂ := hthree.2
    cases Encoding.ofNat? MaybeEncoding.toNat with
    | none => trivial
    | some E =>
      simp only
      split
      · refine (wp_ReadVBR64 h₂.position.valid (by decide)).bind fun Data c₃ h₃ => ?_
        split
        · exact (h₁.trans h₂).after h₃
        · split
          · trivial
          · exact (h₁.trans h₂).after h₃
      · exact h₁.after h₂

theorem wp_readAbbrevOps {n : Nat} : ∀ {c : BitstreamCursor}, c.Valid →
    Call.Wp (readAbbrevOps n) (fun _ c' => Onward 0 c c') c := by
  induction n with
  | zero => exact fun hc => onward_self hc
  | succ n ih =>
    intro c hc
    refine (wp_readAbbrevOp hc).bind fun Op c₁ h₁ => ?_
    exact (ih h₁.position.valid).bind fun Ops c₂ h₂ => h₁.after h₂

theorem wp_ReadAbbrevRecord (hc : Sound c) :
    Call.Wp ReadAbbrevRecord (fun _ c' => Later 1 c c' ∧ ∃ Abbv, WellFormedAbbrev Abbv ∧
      c'.scope = (c.CurCodeSize, c.CurAbbrevs ++ [Abbv], c.BlockScope, c.BlockInfo)) c := by
  have hrun : Call.Wp ReadAbbrevRecord (fun _ c' =>
      SimpleBitstreamCursor.Ahead 1 c.toSimpleBitstreamCursor c'.toSimpleBitstreamCursor) c := by
    refine (wp_ReadVBR hc.valid (by decide)).bind fun NumOpInfo c₁ h₁ => ?_
    refine (wp_readAbbrevOps h₁.position.valid).bind fun Abbv c₂ h₂ => ?_
    split
    · trivial
    · exact (h₁.trans h₂).position.mono (by decide)
  rw [← bind_pure ReadAbbrevRecord]
  refine hrun.bind_run fun _ c' hok hahead => ?_
  obtain ⟨Abbv, hwf, hscope⟩ := ReadAbbrevRecord_ok hok
  refine ⟨⟨⟨hahead.valid, ?_⟩, hahead⟩, Abbv, hwf, hscope⟩
  refine WellScoped.of_scope_eq (c := { c with CurAbbrevs := c.CurAbbrevs ++ [Abbv] })
    ⟨hc.wellScoped.code, fun Abbv' hmem => ?_, hc.wellScoped.blocks, hc.wellScoped.info⟩ hscope
  rcases List.mem_append.mp hmem with hmem | hmem
  · exact hc.wellScoped.abbrevs Abbv' hmem
  · rwa [List.mem_singleton.mp hmem]

theorem getBlockInfo_mem {I : BitstreamBlockInfo} {BlockID : Nat} {R : Bitstream.BlockInfo}
    (h : I.getBlockInfo BlockID = some R) : R ∈ I.BlockInfoRecords := by
  rw [BitstreamBlockInfo.getBlockInfo, Option.bind_eq_some_iff] at h
  obtain ⟨i, -, hget⟩ := h
  exact List.mem_of_getElem? hget

theorem wellFormed_inherited (hc : WellScoped c) (BlockID : Nat) :
    ∀ Abbv ∈ ((c.BlockInfo.bind fun B => B.getBlockInfo BlockID).map
      Bitstream.BlockInfo.Abbrevs).getD [], WellFormedAbbrev Abbv := by
  intro Abbv hmem
  cases hinfo : c.BlockInfo with
  | none =>
    rw [hinfo] at hmem
    exact absurd hmem List.not_mem_nil
  | some I =>
    rw [hinfo, Option.bind_some] at hmem
    cases hget : I.getBlockInfo BlockID with
    | none =>
      rw [hget] at hmem
      exact absurd hmem List.not_mem_nil
    | some R =>
      rw [hget] at hmem
      exact hc.info I hinfo R (getBlockInfo_mem hget) Abbv hmem

theorem wp_EnterSubBlock (hc : Sound c) (BlockID : BitVec 32) :
    Call.Wp (EnterSubBlock BlockID) (fun _ c' => Later 1 c c') c := by
  unfold EnterSubBlock
  rw [Call.wp_bind, Call.wp_modify]
  refine (wp_ReadVBR (c := _) (n := bitc.CodeLenWidth) ?_ (by decide)).bind
    fun MaybeVBR c₁ h₁ => ?_
  · exact hc.valid
  rw [Call.wp_bind, Call.wp_modify]
  split
  · trivial
  · next hle =>
    refine (wp_Skip ?_).bind fun _ c₂ h₂ => ?_
    · exact h₁.position.valid
    refine (wp_Read h₂.1.position.valid (by decide)).bind fun NumWords c₃ hread => ?_
    have h₃ := hread.2
    rw [Call.wp_bind, Call.wp_get]
    split
    · trivial
    · next hne =>
      split
      · trivial
      · have hscope := h₃.scope_eq.trans h₂.1.scope_eq
        have hahead := (h₁.position.trans h₂.1.position).trans h₃.position
        refine ⟨⟨h₃.position.valid, WellScoped.of_scope_eq ?_ hscope⟩, hahead.mono (by decide)⟩
        have hcode : c₃.CurCodeSize = MaybeVBR.toNat := congrArg Prod.fst hscope
        have hscope₁ := h₁.scope_eq
        simp only [scope, Prod.mk.injEq] at hscope₁
        obtain ⟨-, habbrevs, hblocks, hinfo⟩ := hscope₁
        refine ⟨⟨by simp only; omega, Nat.le_of_not_lt hle⟩, ?_, ?_, ?_⟩
        · simp only
          rw [habbrevs]
          exact wellFormed_inherited hc.wellScoped BlockID.toNat
        · simp only
          rw [hblocks]
          exact List.forall_mem_cons.mpr ⟨⟨hc.wellScoped.code, hc.wellScoped.abbrevs⟩, hc.wellScoped.blocks⟩
        · simp only
          rw [hinfo]
          exact hc.wellScoped.info

theorem wp_SkipBlock (hc : Sound c) : Call.Wp SkipBlock (fun _ c' => Later 0 c c') c := by
  refine (wp_ReadVBR hc.valid (by decide)).bind fun _ c₁ h₁ => ?_
  refine (wp_Skip h₁.position.valid).bind fun _ c₂ h₂ => ?_
  refine (wp_Read h₂.1.position.valid (by decide)).bind fun MaybeNum c₃ hread => ?_
  have h₃ := hread.2
  rw [Call.wp_bind, Call.wp_get]
  simp only
  split
  · trivial
  · split
    · trivial
    · next hcan =>
      have hword := Nat.le_trans (Nat.div_mul_le_self _ 8) (not_not.mp hcan)
      refine (wp_JumpToBit (Nat.le_add_right ..) hword).mono fun _ c₄ h₄ => ?_
      exact hc.onward (((h₁.trans h₂.1).trans h₃).after h₄)

theorem wp_ReadBlockEnd (hc : Sound c) : Call.Wp ReadBlockEnd (fun _ c' => Later 0 c c') c := by
  unfold ReadBlockEnd
  rw [Call.wp_bind, Call.wp_get]
  cases hblocks : c.BlockScope with
  | nil => exact hc.later
  | cons B Bs =>
    refine (wp_Skip hc.valid).bind fun _ c₁ h₁ => ?_
    rw [Call.wp_bind, Call.wp_modify]
    have hscope := h₁.1.scope_eq
    simp only [scope, Prod.mk.injEq] at hscope
    have hB := hc.wellScoped.blocks B (by rw [hblocks]; exact List.mem_cons_self ..)
    rw [hscope.2.2.1, hblocks]
    refine ⟨⟨h₁.1.position.valid, hB.1, hB.2, fun B' hmem => ?_, ?_⟩, h₁.1.position⟩
    · exact hc.wellScoped.blocks B' (by rw [hblocks]; exact List.mem_cons_of_mem _ hmem)
    · simp only
      rw [hscope.2.2.2]
      exact hc.wellScoped.info

/-- An entry other than the error marker was read from at least one bit. -/
def entryBits : BitstreamEntry → Nat
  | .Error => 0
  | _ => 1

theorem entryBits_le (E : BitstreamEntry) : entryBits E ≤ 1 := by
  cases E <;> simp [entryBits]

theorem wp_advanceLoop (Flags : AdvanceFlags) (fuel : Nat) :
    ∀ {c : BitstreamCursor}, Sound c → c.bitsLeft < fuel →
      Call.Wp (advanceLoop Flags fuel) (fun E c' => Later (entryBits E) c c') c := by
  induction fuel with
  | zero => exact fun _ hfuel => absurd hfuel (Nat.not_lt_zero _)
  | succ fuel ih =>
    intro c hc hfuel
    have hcode := hc.wellScoped.code
    rw [MaxChunkSize] at hcode
    rw [advanceLoop, Call.wp_bind, Call.wp_get]
    split
    · exact hc.later
    · refine (wp_Read hc.valid (by omega)).bind fun MaybeCode c₁ hread => ?_
      have h₁ : Later 1 c c₁ := hc.onward (hread.2.mono hcode.1)
      simp only
      split
      · split
        · exact h₁
        · refine (wp_ReadBlockEnd h₁.sound).bind fun failed c₂ h₂ => ?_
          exact (h₁.trans h₂).mono (entryBits_le _)
      · split
        · refine (wp_ReadVBR h₁.sound.valid (by decide)).bind fun MaybeSubBlock c₂ h₂ => ?_
          exact (h₁.trans (h₁.sound.onward h₂)).mono
            (Nat.le_trans (entryBits_le _) (Nat.le_add_right ..))
        · split
          · refine (wp_ReadAbbrevRecord h₁.sound).bind fun _ c₂ h₂ => ?_
            have hlater := h₁.trans h₂.1
            have hlt := (hlater.mono (by decide : 1 ≤ 1 + 1)).bitsLeft_lt
            refine (ih hlater.sound (by omega)).mono fun E c₃ h₃ => ?_
            exact (hlater.trans h₃).mono (by omega)
          · exact h₁

theorem wp_advance (hc : Sound c) (Flags : AdvanceFlags) :
    Call.Wp (advance Flags) (fun E c' => Later (entryBits E) c c') c := by
  rw [advance, Call.wp_bind, Call.wp_get]
  exact wp_advanceLoop Flags _ hc (Nat.lt_succ_self _)

theorem wp_advanceSkippingLoop (Flags : AdvanceFlags) (fuel : Nat) :
    ∀ {c : BitstreamCursor}, Sound c → c.bitsLeft < fuel →
      Call.Wp (advanceSkippingLoop Flags fuel) (fun E c' => Later (entryBits E) c c') c := by
  induction fuel with
  | zero => exact fun _ hfuel => absurd hfuel (Nat.not_lt_zero _)
  | succ fuel ih =>
    intro c hc hfuel
    rw [advanceSkippingLoop]
    refine (wp_advance hc Flags).bind fun E c₁ h₁ => ?_
    cases E with
    | SubBlock ID =>
      refine (wp_SkipBlock h₁.sound).bind fun _ c₂ h₂ => ?_
      have hlater := h₁.trans h₂
      have hlt := hlater.bitsLeft_lt
      refine (ih hlater.sound (by omega)).mono fun E c₃ h₃ => ?_
      exact (hlater.trans h₃).mono (by omega)
    | Error => exact h₁
    | EndBlock => exact h₁
    | Record ID => exact h₁

theorem wp_advanceSkippingSubblocks (hc : Sound c) (Flags : AdvanceFlags) :
    Call.Wp (advanceSkippingSubblocks Flags) (fun E c' => Later (entryBits E) c c') c := by
  rw [advanceSkippingSubblocks, Call.wp_bind, Call.wp_get]
  exact wp_advanceSkippingLoop Flags _ hc (Nat.lt_succ_self _)

/-! ## The block of block information -/

/-- The flags of the calls that read the block's entries. -/
def blockInfoFlags : AdvanceFlags := { DontAutoprocessAbbrevs := true }

/-- The states at the head of the loop of `ReadBlockInfoBlock` that began at a cursor. -/
inductive HeadReached (ReadBlockInfoNames : Bool) (start : BitstreamCursor) :
    BitstreamBlockInfo → Option Nat → BitstreamCursor → Prop where
  | start : HeadReached ReadBlockInfoNames start {} none start
  | abbrev {info i c c₁ c₂ ID Abbv} (h : HeadReached ReadBlockInfoNames start info (some i) c)
      (hentry : advanceSkippingSubblocks blockInfoFlags c = .ok (.Record ID, c₁))
      (hread : ReadAbbrevRecord c₁ = .ok ((), c₂)) (hlast : c₂.CurAbbrevs.getLast? = some Abbv) :
      HeadReached ReadBlockInfoNames start
        (info.update i fun BI => { BI with Abbrevs := BI.Abbrevs ++ [Abbv] }) (some i)
        { c₂ with CurAbbrevs := c₂.CurAbbrevs.dropLast }
  | record {info cur info' cur' c c₁ c₂ c₃ ID Code Record}
      (h : HeadReached ReadBlockInfoNames start info cur c)
      (hentry : advanceSkippingSubblocks blockInfoFlags c = .ok (.Record ID, c₁))
      (hread : readRecord ID false {} c₁ = .ok ((Code, Record), c₂))
      (hnext : blockInfoRecord ReadBlockInfoNames info cur Code.toNat Record.Vals c₂ =
        .ok (some (info', cur'), c₃)) :
      HeadReached ReadBlockInfoNames start info' cur' c₃

/-- When names are read, every record that names a record of the current block has an operand. -/
def NamesGuard (ReadBlockInfoNames : Bool) (start : BitstreamCursor) : Prop :=
  ReadBlockInfoNames = true → ∀ info i c ID c₁ Code Record c₂,
    HeadReached ReadBlockInfoNames start info (some i) c →
    advanceSkippingSubblocks blockInfoFlags c = .ok (.Record ID, c₁) →
    ID.toNat ≠ bitc.DEFINE_ABBREV → readRecord ID false {} c₁ = .ok ((Code, Record), c₂) →
    Code.toNat = bitc.BLOCKINFO_CODE_SETRECORDNAME → Record.Vals ≠ []

theorem WellFormedInfo.update (h : WellFormedInfo info) (i : Nat)
    {f : Bitstream.BlockInfo → Bitstream.BlockInfo}
    (hf : ∀ R, (∀ Abbv ∈ R.Abbrevs, WellFormedAbbrev Abbv) →
      ∀ Abbv ∈ (f R).Abbrevs, WellFormedAbbrev Abbv) : WellFormedInfo (info.update i f) := by
  intro R hmem
  obtain ⟨j, hj⟩ := List.mem_iff_getElem?.mp hmem
  rw [BitstreamBlockInfo.update, List.getElem?_modify, Option.map_eq_map,
    Option.map_eq_some_iff] at hj
  obtain ⟨R₀, hR₀, rfl⟩ := hj
  have hwf := h R₀ (List.mem_of_getElem? hR₀)
  by_cases hij : i = j
  · rw [if_pos hij]
    exact hf R₀ hwf
  · rw [if_neg hij]
    exact hwf

theorem WellFormedInfo.getOrCreate (h : WellFormedInfo info) (BlockID : Nat) :
    WellFormedInfo (info.getOrCreateBlockInfo BlockID).2 := by
  rw [BitstreamBlockInfo.getOrCreateBlockInfo]
  split
  · exact h
  · intro R hmem
    rcases List.mem_append.mp hmem with hmem | hmem
    · exact h R hmem
    · rw [List.mem_singleton.mp hmem]
      exact fun Abbv habbrev => absurd habbrev List.not_mem_nil

theorem wp_blockInfoRecord (hc : c.Valid) (ReadBlockInfoNames : Bool)
    (hinfo : WellFormedInfo info) (cur : Option Nat) (Code : Nat) (Record : List (BitVec 64))
    (hnames : ReadBlockInfoNames = true → cur ≠ none →
      Code = bitc.BLOCKINFO_CODE_SETRECORDNAME → Record ≠ []) :
    Call.Wp (blockInfoRecord ReadBlockInfoNames info cur Code Record)
      (fun next c' => Onward 0 c c' ∧ ∀ state, next = some state → WellFormedInfo state.1) c := by
  have hnone : Call.Wp (pure none : Run (Option (BitstreamBlockInfo × Option Nat)))
      (fun next c' => Onward 0 c c' ∧ ∀ state, next = some state → WellFormedInfo state.1) c :=
    ⟨onward_self hc, fun _ h => by cases h⟩
  have hsome {info' : BitstreamBlockInfo} (h : WellFormedInfo info') (cur' : Option Nat) :
      Call.Wp (pure (some (info', cur')) : Run (Option (BitstreamBlockInfo × Option Nat)))
        (fun next c' => Onward 0 c c' ∧ ∀ state, next = some state → WellFormedInfo state.1) c :=
    ⟨onward_self hc, fun _ h' => by
      cases h'
      exact h⟩
  unfold blockInfoRecord
  split
  · cases Record with
    | nil => exact hnone
    | cons ID Record => exact hsome (WellFormedInfo.getOrCreate hinfo _) _
  · split
    · cases cur with
      | none => exact hnone
      | some i =>
        cases ReadBlockInfoNames with
        | false => exact hsome hinfo _
        | true => exact hsome (WellFormedInfo.update hinfo i
            (f := fun BI => { BI with Name := nameOf Record }) fun R h => h) _
    · split
      · next hcode =>
        cases cur with
        | none => exact hnone
        | some i =>
          cases ReadBlockInfoNames with
          | false => exact hsome hinfo _
          | true =>
            cases Record with
            | nil => exact absurd rfl (hnames rfl (Option.some_ne_none i) hcode)
            | cons ID Name =>
              have hnamed := WellFormedInfo.update hinfo i (f := fun BI => { BI with
                RecordNames := BI.RecordNames ++ [((ID.setWidth 32).toNat, nameOf Name)] })
                fun R h => h
              exact hsome hnamed _
      · exact hsome hinfo _

theorem wp_blockInfoLoop {ReadBlockInfoNames : Bool} {start : BitstreamCursor}
    (hguard : NamesGuard ReadBlockInfoNames start) (fuel : Nat) :
    ∀ {c : BitstreamCursor} {info : BitstreamBlockInfo} {cur : Option Nat}, Sound c →
      c.bitsLeft < fuel → WellFormedInfo info →
      HeadReached ReadBlockInfoNames start info cur c →
      Call.Wp (blockInfoLoop ReadBlockInfoNames fuel info cur)
        (fun out c' => Later 0 c c' ∧ ∀ I, out = some I → WellFormedInfo I) c := by
  induction fuel with
  | zero => exact fun _ hfuel => absurd hfuel (Nat.not_lt_zero _)
  | succ fuel ih =>
    intro c info cur hc hfuel hinfo hreach
    have hgivenUp {k : Nat} {c' : BitstreamCursor} (h : Later k c c') :
        Later 0 c c' ∧ ∀ I, (none : Option BitstreamBlockInfo) = some I → WellFormedInfo I :=
      ⟨h.mono (Nat.zero_le _), fun _ h' => by cases h'⟩
    unfold blockInfoLoop
    refine (wp_advanceSkippingSubblocks hc blockInfoFlags).bind_run fun E c₁ hentry h₁ => ?_
    cases E with
    | SubBlock ID => exact hgivenUp h₁
    | Error => exact hgivenUp h₁
    | EndBlock =>
      refine ⟨h₁.mono (Nat.zero_le _), fun I h => ?_⟩
      cases h
      exact hinfo
    | Record ID =>
      simp only
      by_cases hid : ID.toNat = bitc.DEFINE_ABBREV
      · rw [if_pos hid]
        cases cur with
        | none => exact hgivenUp h₁
        | some i =>
          refine (wp_ReadAbbrevRecord h₁.sound).bind_run fun _ c₂ hread h₂ => ?_
          obtain ⟨hlater, Abbv, hwf, hscope⟩ := h₂
          simp only [scope, Prod.mk.injEq] at hscope
          have hlast : c₂.CurAbbrevs.getLast? = some Abbv := by
            rw [hscope.2.1, List.getLast?_append, List.getLast?_singleton, Option.some_or]
          rw [Call.wp_bind, Call.wp_get, hlast]
          simp only
          rw [Call.wp_bind, Call.wp_set]
          have hsound : Sound { c₂ with CurAbbrevs := c₂.CurAbbrevs.dropLast } := by
            refine ⟨hlater.sound.valid, h₁.sound.wellScoped.of_scope_eq ?_⟩
            simp only [scope, Prod.mk.injEq]
            rw [hscope.1, hscope.2.1, hscope.2.2.1, hscope.2.2.2, List.dropLast_concat]
            exact ⟨rfl, rfl, rfl, rfl⟩
          have hall : Later 1 c { c₂ with CurAbbrevs := c₂.CurAbbrevs.dropLast } :=
            ⟨hsound, (h₁.trans hlater).position.mono (Nat.le_add_left 1 _)⟩
          have hlt := hall.bitsLeft_lt
          have hinfo' : WellFormedInfo
              (info.update i fun BI => { BI with Abbrevs := BI.Abbrevs ++ [Abbv] }) := by
            refine WellFormedInfo.update hinfo i fun R hR Abbv' hmem => ?_
            rcases List.mem_append.mp hmem with hmem | hmem
            · exact hR Abbv' hmem
            · rwa [List.mem_singleton.mp hmem]
          refine (ih hsound (by omega) hinfo' (.abbrev hreach hentry hread hlast)).mono
            fun _ c₃ h₃ => ?_
          exact ⟨(hall.trans h₃.1).mono (Nat.zero_le _), h₃.2⟩
      · rw [if_neg hid]
        refine (wp_readRecord h₁.sound.valid h₁.sound.wellScoped.abbrevs ID false {}).bind_run
          fun out c₂ hread h₂ => ?_
        obtain ⟨Code, Record⟩ := out
        have hlater₂ := h₁.trans (h₁.sound.onward h₂)
        refine (wp_blockInfoRecord hlater₂.sound.valid ReadBlockInfoNames hinfo cur Code.toNat
          Record.Vals ?_).bind_run fun next c₃ hnext h₃ => ?_
        · intro hnames hcur hcode
          obtain ⟨i, rfl⟩ := Option.ne_none_iff_exists'.mp hcur
          exact hguard hnames info i c ID c₁ Code Record c₂ hreach hentry hid hread hcode
        have hlater := hlater₂.trans (hlater₂.sound.onward h₃.1)
        cases next with
        | none => exact hgivenUp hlater
        | some state =>
          obtain ⟨info', cur'⟩ := state
          have hlt := hlater.bitsLeft_lt
          refine (ih hlater.sound (by omega) (h₃.2 _ rfl)
            (.record hreach hentry hread hnext)).mono fun _ c₄ h₄ => ?_
          exact ⟨(hlater.trans h₄.1).mono (Nat.zero_le _), h₄.2⟩

theorem wp_ReadBlockInfoBlock (hc : Sound c) {ReadBlockInfoNames : Bool}
    (hguard : ∀ NumWords c₁,
      EnterSubBlock (.ofNat 32 bitc.BLOCKINFO_BLOCK_ID) c = .ok (NumWords, c₁) →
      NamesGuard ReadBlockInfoNames c₁) :
    Call.Wp (ReadBlockInfoBlock ReadBlockInfoNames)
      (fun out c' => Later 0 c c' ∧ ∀ I, out = some I → WellFormedInfo I) c := by
  rw [ReadBlockInfoBlock]
  refine (wp_EnterSubBlock hc _).bind_run fun NumWords c₁ hrun h₁ => ?_
  rw [Call.wp_bind, Call.wp_get]
  refine (wp_blockInfoLoop (hguard NumWords c₁ hrun) _ h₁.sound (Nat.lt_succ_self _)
    (fun R hmem => absurd hmem List.not_mem_nil) .start).mono fun _ c₂ h₂ => ?_
  exact ⟨(h₁.trans h₂.1).mono (Nat.zero_le _), h₂.2⟩

/-! ## Runs -/

/-- A call of the reader, without the values it returns. The information that `ReadBlockInfoBlock`
reads is handed to the cursor when `installed`, as clients do. -/
inductive ReaderCall where
  | advance (Flags : AdvanceFlags)
  | advanceSkippingSubblocks (Flags : AdvanceFlags)
  | EnterSubBlock (BlockID : BitVec 32)
  | SkipBlock
  | readRecord (AbbrevID : BitVec 32) (wanted : Bool)
  | skipRecord (AbbrevID : BitVec 32)
  | ReadAbbrevRecord
  | ReadBlockInfoBlock (ReadBlockInfoNames installed : Bool)
  deriving DecidableEq, Repr

def step : ReaderCall → Run Unit
  | .advance Flags => (fun _ => ()) <$> advance Flags
  | .advanceSkippingSubblocks Flags => (fun _ => ()) <$> advanceSkippingSubblocks Flags
  | .EnterSubBlock BlockID => (fun _ => ()) <$> EnterSubBlock BlockID
  | .SkipBlock => SkipBlock
  | .readRecord AbbrevID wanted => (fun _ => ()) <$> readRecord AbbrevID wanted {}
  | .skipRecord AbbrevID => (fun _ => ()) <$> skipRecord AbbrevID
  | .ReadAbbrevRecord => ReadAbbrevRecord
  | .ReadBlockInfoBlock names installed => do
      let NewBlockInfo ← ReadBlockInfoBlock names
      match NewBlockInfo with
      | some I => if installed then setBlockInfo I else pure ()
      | none => pure ()

/-- A sequence of calls, up to the first error. -/
def runCalls : List ReaderCall → Run Unit
  | [] => pure ()
  | call :: rest => do
      step call
      runCalls rest

/-- What the reader does not check: the arrays of a record that is skipped, and the operands of a
record that names a record. -/
def Guard : ReaderCall → BitstreamCursor → Prop
  | .skipRecord AbbrevID, c => SkipGuard AbbrevID c
  | .ReadBlockInfoBlock names _, c => ∀ NumWords c₁,
      EnterSubBlock (.ofNat 32 bitc.BLOCKINFO_BLOCK_ID) c = .ok (NumWords, c₁) →
      NamesGuard names c₁
  | _, _ => True

/-- Every call of a run is made in a state where that holds. -/
def RunGuarded : List ReaderCall → BitstreamCursor → Prop
  | [], _ => True
  | call :: rest, c => Guard call c ∧ ∀ c', step call c = .ok ((), c') → RunGuarded rest c'

theorem wp_map {α : Type} {m : Run α} (h : Call.Wp m (fun _ c' => Later k c c') c) :
    Call.Wp ((fun _ => ()) <$> m) (fun _ c' => Later 0 c c') c := by
  rw [map_eq_pure_bind]
  exact h.bind fun _ _ h' => h'.mono (Nat.zero_le _)

theorem wp_step (hc : Sound c) {call : ReaderCall} (hguard : Guard call c) :
    Call.Wp (step call) (fun _ c' => Later 0 c c') c := by
  cases call with
  | advance Flags =>
    rw [step, map_eq_pure_bind]
    exact (wp_advance hc Flags).bind fun _ _ h => h.mono (Nat.zero_le _)
  | advanceSkippingSubblocks Flags =>
    rw [step, map_eq_pure_bind]
    exact (wp_advanceSkippingSubblocks hc Flags).bind fun _ _ h => h.mono (Nat.zero_le _)
  | EnterSubBlock BlockID => exact wp_map (wp_EnterSubBlock hc BlockID)
  | SkipBlock => exact wp_SkipBlock hc
  | readRecord AbbrevID wanted =>
    exact wp_map ((wp_readRecord hc.valid hc.wellScoped.abbrevs AbbrevID wanted {}).mono
      fun _ _ h => hc.onward h)
  | skipRecord AbbrevID =>
    exact wp_map ((wp_skipRecord hc.valid hc.wellScoped.abbrevs hguard).mono
      fun _ _ h => hc.onward h)
  | ReadAbbrevRecord => exact (wp_ReadAbbrevRecord hc).mono fun _ _ h => h.1.mono (Nat.zero_le _)
  | ReadBlockInfoBlock names installed =>
    refine (wp_ReadBlockInfoBlock hc hguard).bind fun out c₁ h₁ => ?_
    cases out with
    | none => exact h₁.1
    | some I =>
      cases installed with
      | false => exact h₁.1
      | true =>
        have hsound := h₁.1.sound.wellScoped
        refine ⟨⟨h₁.1.sound.valid, hsound.code, hsound.abbrevs, hsound.blocks, ?_⟩,
          h₁.1.position⟩
        intro I' hI'
        cases hI'
        exact h₁.2 I rfl

theorem wp_runCalls (calls : List ReaderCall) :
    ∀ {c : BitstreamCursor}, Sound c → RunGuarded calls c →
      Call.Wp (runCalls calls) (fun _ c' => Later 0 c c') c := by
  induction calls with
  | nil => exact fun hc _ => hc.later
  | cons call rest ih =>
    intro c hc hguard
    refine (wp_step hc hguard.1).bind_run fun _ c₁ hrun h₁ => ?_
    exact (ih h₁.sound (hguard.2 c₁ hrun)).mono fun _ _ h₂ => (h₁.trans h₂).mono (Nat.zero_le _)

/-- On every byte string every guarded run of the reader has an outcome: its assertions hold, its
accesses are in bounds and its loops end. -/
theorem reader_has_outcome (bytes : Bytes) (calls : List ReaderCall)
    (hguard : RunGuarded calls (fresh bytes)) : runCalls calls (fresh bytes) ≠ .stuck :=
  (wp_runCalls calls (Sound.fresh bytes) hguard).ne_stuck

theorem reader_has_outcome_block :
    runCalls [.advance {}, .ReadBlockInfoBlock false true, .SkipBlock]
      (fresh [0xc1, 0x04, 0, 0, 5, 0, 0, 0, 0xff]) ≠ .stuck :=
  reader_has_outcome _ _ ⟨trivial, fun _ _ => ⟨fun _ _ _ hnames => absurd hnames (by decide),
    fun _ _ => ⟨trivial, fun _ _ => trivial⟩⟩⟩

/-- An abbreviation that ends with an array is installed, and skipping a record with it fails the
assertion on the array's place. -/
theorem trailing_array_not_rejected :
    ¬∀ (bytes : Bytes) (calls : List ReaderCall), runCalls calls (fresh bytes) ≠ .stuck := by
  intro h
  exact h [98, 128, 1] [.ReadAbbrevRecord, .skipRecord 4] (by decide +kernel)

end SmlnjLlvm.Bitstream.BitstreamCursor
