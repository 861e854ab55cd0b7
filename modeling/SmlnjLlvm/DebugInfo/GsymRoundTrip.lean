import SmlnjLlvm.DebugInfo.GsymDeltas

/-!
# GSYM line tables round trip

The parser reads the opcodes of an entry back as that entry, unless an address
delta is so large that the special opcode wraps.
-/

namespace SmlnjLlvm.Gsym

open LEB128 Loop

/-- The special opcode of the entry is one of a sum that wrapped. -/
def Wraps (MinLineDelta MaxLineDelta : Int) (Prev Curr : LineEntry) : Prop :=
  InRange MinLineDelta MaxLineDelta (lineDelta Prev Curr) ∧
    2 ^ 64 ≤ specialValue MinLineDelta MaxLineDelta (lineDelta Prev Curr) (Curr.Addr - Prev.Addr) + 4 ∧
    (specialValue MinLineDelta MaxLineDelta (lineDelta Prev Curr) (Curr.Addr - Prev.Addr) + 4) % 2 ^ 64
      ≤ 255

instance (MinLineDelta MaxLineDelta : Int) (Prev Curr : LineEntry) :
    Decidable (Wraps MinLineDelta MaxLineDelta Prev Curr) := instDecidableAnd

/-- No entry wraps, from the one after `Prev` on. -/
def NoneWraps (MinLineDelta MaxLineDelta : Int) : LineEntry → List LineEntry → Prop
  | _, [] => True
  | Prev, Curr :: rest =>
    ¬Wraps MinLineDelta MaxLineDelta Prev Curr ∧ NoneWraps MinLineDelta MaxLineDelta Curr rest

theorem ofInt_lineDelta (Prev Curr : LineEntry) :
    BitVec.ofInt 32 (lineDelta Prev Curr) = Curr.Line - Prev.Line := by
  unfold lineDelta
  split_ifs with hlt hgt
  · rw [BitVec.ofInt_natCast, BitVec.ofNat_toNat, BitVec.setWidth_eq]
  · rw [BitVec.ofInt_toInt]
    apply BitVec.eq_of_toNat_eq
    simp only [BitVec.toNat_neg, BitVec.toNat_sub]
    omega
  · have heq : Curr.Line = Prev.Line := by
      apply BitVec.eq_of_toNat_eq
      rw [BitVec.lt_def] at hlt hgt
      omega
    rw [heq, BitVec.sub_self]
    rfl

theorem setWidth_ofInt (x : Int) : (BitVec.ofInt 64 x).setWidth 32 = BitVec.ofInt 32 x := by
  apply BitVec.eq_of_toNat_eq
  rw [BitVec.toNat_setWidth, BitVec.toNat_ofInt, BitVec.toNat_ofInt]
  omega

theorem line_add_delta (Prev Curr : LineEntry) :
    Prev.Line + (BitVec.ofInt 64 (lineDelta Prev Curr)).setWidth 32 = Curr.Line := by
  rw [setWidth_ofInt, ofInt_lineDelta, add_sub_cancel]

/-! ## One opcode -/

section Turn

variable {σ : Type} {d : DataExtractor} {MinLineDelta MaxLineDelta : Int}
  {Callback : LineEntry → σ → σ × Bool} {s : ParseState σ}

/-- The turn for a range of line deltas, as the parser computes it from the header. -/
def rangeTurn (d : DataExtractor) (MinLineDelta MaxLineDelta : Int)
    (Callback : LineEntry → σ → σ × Bool) :
    ParseState σ → Option (Turn (ParseState σ) (ParseResult σ)) :=
  parseTurn d (BitVec.ofInt 64 MinLineDelta)
    (BitVec.ofInt 64 MaxLineDelta - BitVec.ofInt 64 MinLineDelta + 1) Callback

theorem turn_end (h : d.At s.Offset [EndSequence]) :
    rangeTurn d MinLineDelta MaxLineDelta Callback s = some (.exit (.ok (), s.acc)) := by
  unfold rangeTurn parseTurn
  rw [if_neg (Nat.not_le.mpr h.lt), DataExtractor.getU8_at h]
  rfl

theorem turn_setFile {File : BitVec 32} (h : d.At s.Offset (SetFile :: uleb128 (File.setWidth 64))) :
    rangeTurn d MinLineDelta MaxLineDelta Callback s = some (.next
      { s with
        Offset := s.Offset + 1 + (uleb128 (File.setWidth 64)).length
        Row := { s.Row with File := File } }) := by
  have hread := DataExtractor.getULEB128_at (decodeULEB128_uleb128 _) h.tail
  have hlt := h.tail.lt_of_ne_nil (uleb128_ne_nil _)
  have hnarrow : (File.setWidth 64).setWidth 32 = File := by simp
  unfold rangeTurn parseTurn
  rw [if_neg (Nat.not_le.mpr h.lt), DataExtractor.getU8_at h]
  simp [SetFile, Nat.not_le.mpr hlt, hread, hnarrow]

theorem turn_advancePC {AddrDelta : BitVec 64}
    (h : d.At s.Offset (AdvancePC :: uleb128 AddrDelta)) :
    rangeTurn d MinLineDelta MaxLineDelta Callback s = some (emitRow Callback
      { s with
        Offset := s.Offset + 1 + (uleb128 AddrDelta).length
        Row := { s.Row with Addr := s.Row.Addr + AddrDelta } }) := by
  have hread := DataExtractor.getULEB128_at (decodeULEB128_uleb128 _) h.tail
  have hlt := h.tail.lt_of_ne_nil (uleb128_ne_nil _)
  unfold rangeTurn parseTurn
  rw [if_neg (Nat.not_le.mpr h.lt), DataExtractor.getU8_at h]
  simp [AdvancePC, Nat.not_le.mpr hlt, hread]

theorem turn_advanceLine {LineDelta : BitVec 64}
    (h : d.At s.Offset (AdvanceLine :: sleb128 LineDelta)) :
    rangeTurn d MinLineDelta MaxLineDelta Callback s = some (.next
      { s with
        Offset := s.Offset + 1 + (sleb128 LineDelta).length
        Row := { s.Row with Line := s.Row.Line + LineDelta.setWidth 32 } }) := by
  have hread := DataExtractor.getSLEB128_at (decodeSLEB128_sleb128 _) h.tail
  have hlt := h.tail.lt_of_ne_nil (sleb128_ne_nil _)
  unfold rangeTurn parseTurn
  rw [if_neg (Nat.not_le.mpr h.lt), DataExtractor.getU8_at h]
  simp [AdvanceLine, Nat.not_le.mpr hlt, hread]

theorem toNat_lineRange (hrange : UsableRange MinLineDelta MaxLineDelta) :
    (BitVec.ofInt 64 MaxLineDelta - BitVec.ofInt 64 MinLineDelta + 1 : BitVec 64).toNat =
      (MaxLineDelta - MinLineDelta + 1).toNat := by
  have hle := hrange.le
  have hsize := hrange.size
  unfold MaxLineRange at hsize
  have hsub : (BitVec.ofInt 64 MaxLineDelta - BitVec.ofInt 64 MinLineDelta + 1 : BitVec 64) =
      BitVec.ofInt 64 (MaxLineDelta - MinLineDelta + 1) := by
    rw [BitVec.ofInt_add, Int.sub_eq_add_neg, BitVec.ofInt_add, BitVec.ofInt_neg,
      BitVec.sub_eq_add_neg]
    rfl
  rw [hsub, BitVec.toNat_ofInt, Int.emod_eq_of_lt (by omega) (by omega)]

theorem turn_special (hrange : UsableRange MinLineDelta MaxLineDelta) {Op : UInt8} {LineDelta : Int}
    {k : Nat} (hin : InRange MinLineDelta MaxLineDelta LineDelta)
    (hop : Op.toNat = (LineDelta - MinLineDelta).toNat +
      k * (MaxLineDelta - MinLineDelta + 1).toNat + 4) (h : d.At s.Offset [Op]) :
    rangeTurn d MinLineDelta MaxLineDelta Callback s = some (emitRow Callback
      { s with
        Offset := s.Offset + 1
        Row :=
          { s.Row with
            Line := s.Row.Line + (BitVec.ofInt 64 LineDelta).setWidth 32
            Addr := s.Row.Addr + BitVec.ofNat 64 k } }) := by
  have hR := toNat_lineRange hrange
  have hsize := hrange.size
  unfold MaxLineRange at hsize
  obtain ⟨hlo, hhi⟩ := id hin
  have hopLt := Op.toNat_lt
  have hline : BitVec.ofInt 64 MinLineDelta +
      BitVec.ofNat 64 (LineDelta - MinLineDelta).toNat = BitVec.ofInt 64 LineDelta := by
    rw [← BitVec.ofInt_natCast, Int.toNat_of_nonneg (by omega), ← BitVec.ofInt_add]
    congr 1
    omega
  have hTR : (LineDelta - MinLineDelta).toNat < (MaxLineDelta - MinLineDelta + 1).toNat := by omega
  have hR15 : (MaxLineDelta - MinLineDelta + 1).toNat ≤ 15 := by omega
  generalize (LineDelta - MinLineDelta).toNat = T at hop hline hTR
  generalize (MaxLineDelta - MinLineDelta + 1).toNat = R at hop hR hTR hR15
  unfold rangeTurn parseTurn
  rw [if_neg (Nat.not_le.mpr h.lt), DataExtractor.getU8_at h]
  generalize BitVec.ofInt 64 MaxLineDelta - BitVec.ofInt 64 MinLineDelta + 1 = LineRange at hR ⊢
  have hadj : ((Op - FirstSpecial).toBitVec.setWidth 64).toNat = T + k * R := by
    have hsub : (Op - FirstSpecial).toNat = Op.toNat - 4 :=
      UInt8.toNat_sub_of_le _ _ (UInt8.le_iff_toNat_le.mpr (hop ▸ Nat.le_add_left _ _))
    rw [BitVec.toNat_setWidth, UInt8.toNat_toBitVec, hsub]
    omega
  generalize hAdjusted : (Op - FirstSpecial).toBitVec.setWidth 64 = AdjustedOp at hadj
  have hmsb : ∀ x : BitVec 64, x.toNat < 256 → x.msb = false := by
    intro x hx
    rw [BitVec.msb_eq_false_iff_two_mul_lt]
    omega
  have hadjMsb := hmsb AdjustedOp (by omega)
  have hrangeMsb := hmsb LineRange (by omega)
  have hrem : AdjustedOp.srem LineRange = BitVec.ofNat 64 T := by
    apply BitVec.eq_of_toNat_eq
    rw [BitVec.srem_eq, hadjMsb, hrangeMsb]
    show (AdjustedOp % LineRange).toNat = _
    rw [BitVec.toNat_umod, hadj, hR, Nat.add_mul_mod_self_right, Nat.mod_eq_of_lt hTR,
      BitVec.toNat_ofNat, Nat.mod_eq_of_lt (by omega)]
  have hdiv : AdjustedOp.sdiv LineRange = BitVec.ofNat 64 k := by
    apply BitVec.eq_of_toNat_eq
    rw [BitVec.sdiv_eq, hadjMsb, hrangeMsb]
    show (AdjustedOp / LineRange).toNat = _
    rw [BitVec.toNat_udiv, hadj, hR, Nat.add_mul_div_right _ _ (Nat.zero_lt_of_lt hTR),
      Nat.div_eq_of_lt hTR, Nat.zero_add, BitVec.toNat_ofNat]
    have hk : k ≤ k * R := Nat.le_mul_of_pos_right k (Nat.zero_lt_of_lt hTR)
    omega
  have hne : LineRange ≠ 0 := by
    rintro rfl
    exact absurd hR (by simp; omega)
  simp only [hop, hne, if_false, hAdjusted, hrem, hdiv, hline]
  rfl

end Turn

variable {Curr Prev : LineEntry} {bytes : List UInt8} {r : ParseResult (List LineEntry)}
  {turns : Nat}

section Entry

variable {σ : Type} {d : DataExtractor} {MinLineDelta MaxLineDelta : Int}
  {Callback : LineEntry → σ → σ × Bool} {Offset : Nat} {acc : σ}

theorem offset_cons (Offset : Nat) (b : UInt8) (bytes : List UInt8) :
    Offset + 1 + bytes.length = Offset + (b :: bytes).length := by
  rw [List.length_cons, Nat.add_assoc, Nat.add_comm 1]

theorem encodeFile_leads (h : d.At Offset (encodeFile Prev Curr)) :
    Leads (rangeTurn d MinLineDelta MaxLineDelta Callback) (encodeFile Prev Curr).length
      ⟨Offset, Prev, acc⟩
      ⟨Offset + (encodeFile Prev Curr).length, { Prev with File := Curr.File }, acc⟩ := by
  unfold encodeFile at h ⊢
  split_ifs at h ⊢ with hfile
  · rw [← offset_cons]
    exact Leads.turn (turn_setFile h) (Nat.succ_pos _)
  · rw [not_not.mp hfile]
    exact Leads.refl ..

theorem encodeLine_leads {LineDelta : Int} {Row : LineEntry} (h : d.At Offset (encodeLine LineDelta)) :
    Leads (rangeTurn d MinLineDelta MaxLineDelta Callback) (encodeLine LineDelta).length
      ⟨Offset, Row, acc⟩
      ⟨Offset + (encodeLine LineDelta).length,
        { Row with Line := Row.Line + (BitVec.ofInt 64 LineDelta).setWidth 32 }, acc⟩ := by
  unfold encodeLine at h ⊢
  split_ifs at h ⊢ with hline
  · rw [← offset_cons]
    exact Leads.turn (turn_advanceLine h) (Nat.succ_pos _)
  · have hzero : Row.Line + (BitVec.ofInt 64 LineDelta).setWidth 32 = Row.Line := by
      rw [not_not.mp hline]
      exact BitVec.add_zero Row.Line
    rw [hzero]
    exact Leads.refl ..

theorem row_eq (Prev Curr : LineEntry) : (⟨Prev.Addr + (Curr.Addr - Prev.Addr), Curr.File,
    Prev.Line + (BitVec.ofInt 64 (lineDelta Prev Curr)).setWidth 32⟩ : LineEntry) = Curr := by
  rw [line_add_delta, add_sub_cancel]

theorem encodeEntry_leads (Callback : LineEntry → σ → σ × Bool) (acc : σ)
    (hrange : UsableRange MinLineDelta MaxLineDelta)
    (hwrap : ¬Wraps MinLineDelta MaxLineDelta Prev Curr)
    (h : d.At Offset (encodeEntry MinLineDelta MaxLineDelta Prev Curr)) :
    ∃ s, Leads (rangeTurn d MinLineDelta MaxLineDelta Callback)
        ((encodeEntry MinLineDelta MaxLineDelta Prev Curr).length - 1) ⟨Offset, Prev, acc⟩ s ∧
      rangeTurn d MinLineDelta MaxLineDelta Callback s = some (emitRow Callback
        ⟨Offset + (encodeEntry MinLineDelta MaxLineDelta Prev Curr).length, Curr, acc⟩) := by
  unfold encodeEntry at h ⊢
  dsimp only at h ⊢
  have hfile : Leads (rangeTurn d MinLineDelta MaxLineDelta Callback) (encodeFile Prev Curr).length
      ⟨Offset, Prev, acc⟩
      ⟨Offset + (encodeFile Prev Curr).length, { Prev with File := Curr.File }, acc⟩ :=
    encodeFile_leads h.left
  have hrest := h.right
  rw [encodeSpecial_eq hrange] at hrest ⊢
  generalize encodeFile Prev Curr = file at hfile hrest ⊢
  by_cases hspecial : InRange MinLineDelta MaxLineDelta (lineDelta Prev Curr) ∧
      (specialValue MinLineDelta MaxLineDelta (lineDelta Prev Curr) (Curr.Addr - Prev.Addr) + 4) %
        2 ^ 64 ≤ 255
  · rw [if_pos hspecial] at hrest ⊢
    have hvalue : specialValue MinLineDelta MaxLineDelta (lineDelta Prev Curr)
        (Curr.Addr - Prev.Addr) + 4 < 2 ^ 64 := by
      by_contra hlarge
      exact hwrap ⟨hspecial.1, not_lt.mp hlarge, hspecial.2⟩
    have hsmall := hspecial.2
    rw [Nat.mod_eq_of_lt hvalue] at hrest hsmall ⊢
    have hop : (UInt8.ofNat (specialValue MinLineDelta MaxLineDelta (lineDelta Prev Curr)
        (Curr.Addr - Prev.Addr) + 4)).toNat = specialValue MinLineDelta MaxLineDelta
          (lineDelta Prev Curr) (Curr.Addr - Prev.Addr) + 4 := by
      rw [UInt8.toNat_ofNat']
      exact Nat.mod_eq_of_lt (Nat.lt_succ_of_le hsmall)
    refine ⟨_, hfile.mono ?_, ?_⟩
    · simp
    · rw [turn_special hrange hspecial.1 hop hrest, BitVec.ofNat_toNat, BitVec.setWidth_eq]
      rw [row_eq Prev Curr, List.length_append, List.length_singleton, Nat.add_assoc]
  · rw [if_neg hspecial] at hrest ⊢
    have hline : Leads (rangeTurn d MinLineDelta MaxLineDelta Callback)
        (encodeLine (lineDelta Prev Curr)).length
        ⟨Offset + file.length, { Prev with File := Curr.File }, acc⟩ _ :=
      encodeLine_leads hrest.left
    refine ⟨_, (hfile.trans hline).mono ?_, ?_⟩
    · simp only [List.length_append, List.length_cons]
      omega
    · rw [turn_advancePC hrest.right]
      dsimp only
      rw [row_eq Prev Curr, List.length_append, List.length_append, List.length_cons]
      congr 3
      omega

theorem encodeEntry_length_pos (MinLineDelta MaxLineDelta : Int) (Prev Curr : LineEntry) :
    0 < (encodeEntry MinLineDelta MaxLineDelta Prev Curr).length := by
  unfold encodeEntry
  rw [List.length_append]
  split
  · exact Nat.succ_pos _
  · rw [List.length_append, List.length_cons]
    omega

end Entry

section Table

variable {σ : Type} {d : DataExtractor} {MinLineDelta MaxLineDelta : Int}

/-- What the callback collects from rows, up to the one at which it stops the parse. -/
def feed (Callback : LineEntry → σ → σ × Bool) : List LineEntry → σ → σ
  | [], acc => acc
  | Row :: rest, acc =>
    if (Callback Row acc).2 then feed Callback rest (Callback Row acc).1 else (Callback Row acc).1

theorem encodeEntries_loop (hrange : UsableRange MinLineDelta MaxLineDelta)
    (Callback : LineEntry → σ → σ × Bool) {BaseAddr : BitVec 64} {rest : List LineEntry}
    {Offset : Nat} {acc : σ}
    (hencode : encodeEntries MinLineDelta MaxLineDelta BaseAddr Prev rest = .ok bytes)
    (hnone : NoneWraps MinLineDelta MaxLineDelta Prev rest)
    (h : d.At Offset (bytes ++ [EndSequence])) (hturns : bytes.length < turns) :
    loop (rangeTurn d MinLineDelta MaxLineDelta Callback) turns ⟨Offset, Prev, acc⟩ =
      some (.ok (), feed Callback rest acc) := by
  induction rest generalizing Prev bytes Offset acc turns with
  | nil =>
    obtain rfl := Except.ok.inj hencode
    obtain ⟨turns, rfl⟩ := Nat.exists_eq_add_of_lt hturns
    exact loop_exit (turn_end h) _
  | cons Curr rest ih =>
    unfold encodeEntries at hencode
    split_ifs at hencode
    cases hrest : encodeEntries MinLineDelta MaxLineDelta BaseAddr Curr rest with
    | error e =>
      rw [hrest] at hencode
      exact nomatch hencode
    | ok bytes' =>
      rw [hrest] at hencode
      obtain rfl := Except.ok.inj hencode
      rw [List.append_assoc] at h
      rw [List.length_append] at hturns
      have hpos := encodeEntry_length_pos MinLineDelta MaxLineDelta Prev Curr
      obtain ⟨s, ⟨m, hm, hleads⟩, hturn⟩ :=
        encodeEntry_leads Callback acc hrange hnone.1 h.left
      obtain ⟨k, rfl⟩ : ∃ k, turns = m + (k + 1) := ⟨turns - m - 1, by omega⟩
      rw [hleads, loop_resume hturn]
      unfold emitRow feed
      dsimp only
      split
      · exact ih hrest hnone.2 h.right (by omega)
      · rfl

theorem parse_header (Callback : LineEntry → σ → σ × Bool) (BaseAddr : BitVec 64)
    (FirstLine : BitVec 32) (acc : σ) {rest : List UInt8}
    (h : d.At 0 (encodeHeader MinLineDelta MaxLineDelta FirstLine ++ rest)) :
    parse d BaseAddr Callback acc =
      loop (rangeTurn d MinLineDelta MaxLineDelta Callback) (d.Data.length + 1)
        ⟨(encodeHeader MinLineDelta MaxLineDelta FirstLine).length, ⟨BaseAddr, 1, FirstLine⟩, acc⟩ := by
  unfold encodeHeader at h ⊢
  have hmin := h.left.left.left
  have hmax := h.left.left.right
  have hline := h.left.right
  rw [List.length_append] at hline
  have hmin' := DataExtractor.getSLEB128_at (decodeSLEB128_sleb128 _) hmin
  have hmax' := DataExtractor.getSLEB128_at (decodeSLEB128_sleb128 _) hmax
  have hline' := DataExtractor.getULEB128_at (decodeULEB128_uleb128 _) hline
  have hlt₁ := hmin.lt_of_ne_nil (sleb128_ne_nil _)
  have hlt₂ := hmax.lt_of_ne_nil (sleb128_ne_nil _)
  have hlt₃ := hline.lt_of_ne_nil (uleb128_ne_nil _)
  have hnarrow : (FirstLine.setWidth 64).setWidth 32 = FirstLine := by simp
  simp only [Nat.zero_add] at hmax' hline' hlt₂ hlt₃ hmin'
  unfold parse
  rw [if_neg (Nat.not_le.mpr hlt₁), hmin']
  simp only [Option.bind_eq_bind, Option.bind_some, Cursor.start_Offset, Nat.not_le.mpr hlt₂,
    if_false, hmax', Nat.not_le.mpr hlt₃, hline', hnarrow, List.length_append]
  rfl

theorem encode_eq_ok {first : LineEntry} {rest : List LineEntry} {BaseAddr : BitVec 64}
    (hpick : lineDeltaRange (first :: rest) = some (MinLineDelta, MaxLineDelta))
    (hencode : encode (first :: rest) BaseAddr = some (.ok bytes)) :
    ∃ body, encodeEntries MinLineDelta MaxLineDelta BaseAddr ⟨BaseAddr, 1, first.Line⟩
        (first :: rest) = .ok body ∧
      bytes = encodeHeader MinLineDelta MaxLineDelta first.Line ++ (body ++ [EndSequence]) := by
  simp only [encode, hpick, Option.bind_eq_bind, Option.bind_some, Option.some.injEq] at hencode
  cases hentries : encodeEntries MinLineDelta MaxLineDelta BaseAddr ⟨BaseAddr, 1, first.Line⟩
      (first :: rest) with
  | error e =>
    rw [hentries] at hencode
    exact nomatch hencode
  | ok body =>
    rw [hentries] at hencode
    refine ⟨body, rfl, ?_⟩
    rw [← List.append_assoc]
    exact (Except.ok.inj hencode).symm

theorem parse_encode (Callback : LineEntry → σ → σ × Bool) (acc : σ) {first : LineEntry}
    {rest : List LineEntry} {BaseAddr : BitVec 64}
    (hpick : lineDeltaRange (first :: rest) = some (MinLineDelta, MaxLineDelta))
    (hrange : UsableRange MinLineDelta MaxLineDelta)
    (hencode : encode (first :: rest) BaseAddr = some (.ok bytes))
    (hnone : NoneWraps MinLineDelta MaxLineDelta ⟨BaseAddr, 1, first.Line⟩ (first :: rest))
    (h : d.At 0 bytes) :
    parse d BaseAddr Callback acc = some (.ok (), feed Callback (first :: rest) acc) := by
  obtain ⟨body, hentries, rfl⟩ := encode_eq_ok hpick hencode
  have hbody := h.right
  have hlen := h.length_le
  rw [Nat.zero_add] at hbody
  rw [List.length_append, List.length_append] at hlen
  rw [parse_header Callback BaseAddr first.Line acc h]
  exact encodeEntries_loop hrange Callback hentries hnone hbody (by omega)

end Table

section RoundTrip

variable {first : LineEntry} {rest : List LineEntry} {BaseAddr : BitVec 64}

/-- The addresses do not decrease and are not below the base address. -/
structure Ascending (Lines : List LineEntry) (BaseAddr : BitVec 64) : Prop where
  base : ∀ e ∈ Lines, BaseAddr ≤ e.Addr
  sorted : Lines.Pairwise fun e e' => e.Addr ≤ e'.Addr

theorem encodeEntries_ok (MinLineDelta MaxLineDelta : Int) (Prev : LineEntry)
    {Lines : List LineEntry} (h : Ascending Lines BaseAddr)
    (hprev : ∀ e ∈ Lines, Prev.Addr ≤ e.Addr) :
    ∃ bytes, encodeEntries MinLineDelta MaxLineDelta BaseAddr Prev Lines = .ok bytes := by
  induction Lines generalizing Prev with
  | nil => exact ⟨[], rfl⟩
  | cons Curr rest ih =>
    have hsorted := List.pairwise_cons.mp h.sorted
    obtain ⟨bytes, hbytes⟩ :=
      ih Curr ⟨fun e he => h.base e (List.mem_cons_of_mem _ he), hsorted.2⟩ hsorted.1
    unfold encodeEntries
    rw [if_neg (BitVec.not_lt.mpr (h.base Curr List.mem_cons_self)),
      if_neg (BitVec.not_lt.mpr (hprev Curr List.mem_cons_self)), hbytes]
    exact ⟨_, rfl⟩

theorem feed_push (Lines : List LineEntry) (acc : List LineEntry) :
    feed (fun Row Lines => (Lines ++ [Row], true)) Lines acc = acc ++ Lines := by
  induction Lines generalizing acc with
  | nil => exact (List.append_nil acc).symm
  | cons Row rest ih =>
    rw [feed, if_pos rfl, ih, List.append_assoc]
    rfl

theorem feed_lookup (Addr : BitVec 64) (Lines : List LineEntry) (acc : LineEntry) :
    feed (lookupCallback Addr) Lines acc =
      (Lines.takeWhile fun e => e.Addr ≤ Addr).getLast?.getD acc := by
  induction Lines generalizing acc with
  | nil => rfl
  | cons Row rest ih =>
    unfold feed lookupCallback
    rw [List.takeWhile_cons]
    by_cases hafter : Addr < Row.Addr
    · have hle : ¬Row.Addr ≤ Addr := BitVec.not_le.mpr hafter
      simp [hafter, hle]
    · have hle : Row.Addr ≤ Addr := BitVec.not_lt.mp hafter
      simp only [hafter, if_false, if_true, hle, decide_true, List.getLast?_cons]
      exact ih Row

/-- The bytes are decoded to the entries, and a lookup finds the last entry before an address. -/
def RoundTrips (Lines : List LineEntry) (BaseAddr : BitVec 64) : Prop :=
  ∃ bytes, encode Lines BaseAddr = some (.ok bytes) ∧ ∀ d : DataExtractor, d.Data = bytes →
    decode d BaseAddr = some (.ok Lines) ∧
    ∀ Addr e, (Lines.takeWhile fun e => e.Addr ≤ Addr).getLast? = some e → e.File ≠ 0 →
      lookup d BaseAddr Addr = some (.ok e)

/-- The range of the line deltas can be found, and no entry wraps in it. -/
def Representable (Lines : List LineEntry) (BaseAddr : BitVec 64) : Prop :=
  ¬TooManyDeltas Lines ∧ ∀ first ∈ Lines.head?, ∀ range ∈ lineDeltaRange Lines,
    NoneWraps range.1 range.2 ⟨BaseAddr, 1, first.Line⟩ Lines

theorem roundTrips_of_representable (h : Ascending (first :: rest) BaseAddr)
    (hrep : Representable (first :: rest) BaseAddr) : RoundTrips (first :: rest) BaseAddr := by
  obtain ⟨MinLineDelta, MaxLineDelta, hpick, hrange⟩ := lineDeltaRange_usable hrep.1
  have hnone := hrep.2 first rfl (MinLineDelta, MaxLineDelta) hpick
  obtain ⟨body, hbody⟩ := encodeEntries_ok MinLineDelta MaxLineDelta ⟨BaseAddr, 1, first.Line⟩
    h h.base
  obtain ⟨bytes, hencode⟩ : ∃ bytes, encode (first :: rest) BaseAddr = some (.ok bytes) := by
    simp only [encode, hpick, Option.bind_eq_bind, Option.bind_some, hbody]
    exact ⟨_, rfl⟩
  refine ⟨bytes, hencode, ?_⟩
  rintro d rfl
  have hat : d.At 0 d.Data := ⟨[], by simp⟩
  constructor
  · unfold decode
    rw [parse_encode _ _ hpick hrange hencode hnone hat, feed_push]
    rfl
  · intro Addr e hlast hfile
    have hvalid : e.isValid = true := by simpa [LineEntry.isValid] using hfile
    unfold lookup
    rw [parse_encode _ _ hpick hrange hencode hnone hat, feed_lookup, hlast]
    simp [hvalid]

end RoundTrip

/-! ## Opcodes that wrapped -/

section Misread

variable {d : DataExtractor} {MinLineDelta MaxLineDelta : Int}

/-- The callback of `decode`. -/
def push (Row : LineEntry) (Lines : List LineEntry) : List LineEntry × Bool := (Lines ++ [Row], true)

theorem turn_push_prefix {s : ParseState (List LineEntry)}
    {t : Turn (ParseState (List LineEntry)) (ParseResult (List LineEntry))}
    (h : rangeTurn d MinLineDelta MaxLineDelta push s = some t) :
    t.Sat (fun s' => s.acc <+: s'.acc) (fun r => s.acc <+: r.2) := by
  have hnext {s' : ParseState (List LineEntry)} (h : some (Turn.next s') = some t)
      (hacc : s'.acc = s.acc) :
      t.Sat (fun s' => s.acc <+: s'.acc) (fun r : ParseResult (List LineEntry) => s.acc <+: r.2) := by
    obtain rfl := Option.some.inj h
    exact hacc ▸ List.prefix_rfl
  have hexit {r : ParseResult (List LineEntry)} (h : some (Turn.exit r) = some t)
      (hacc : r.2 = s.acc) :
      t.Sat (fun s' : ParseState (List LineEntry) => s.acc <+: s'.acc) (fun r => s.acc <+: r.2) := by
    obtain rfl := Option.some.inj h
    exact hacc ▸ List.prefix_rfl
  have hemit {s' : ParseState (List LineEntry)} (h : some (emitRow push s') = some t)
      (hacc : s'.acc = s.acc) :
      t.Sat (fun s' => s.acc <+: s'.acc) (fun r => s.acc <+: r.2) := by
    obtain rfl := Option.some.inj h
    show s.acc <+: s'.acc ++ [s'.Row]
    rw [hacc]
    exact List.prefix_append _ _
  unfold rangeTurn parseTurn at h
  split at h
  · exact hexit h rfl
  · dsimp only at h
    split at h
    · exact hexit h rfl
    · split at h
      · exact hexit h rfl
      · obtain ⟨_, -, h⟩ := Option.bind_eq_some_iff.mp h
        exact hnext h rfl
    · split at h
      · exact hexit h rfl
      · obtain ⟨_, -, h⟩ := Option.bind_eq_some_iff.mp h
        exact hemit h rfl
    · split at h
      · exact hexit h rfl
      · obtain ⟨_, -, h⟩ := Option.bind_eq_some_iff.mp h
        exact hnext h rfl
    · split at h
      · exact nomatch h
      · exact hemit h rfl

theorem loop_push_prefix {s : ParseState (List LineEntry)}
    (h : loop (rangeTurn d MinLineDelta MaxLineDelta push) turns s = some r) : s.acc <+: r.2 := by
  induction turns generalizing s with
  | zero => cases h
  | succ turns ih =>
    cases hturn : rangeTurn d MinLineDelta MaxLineDelta push s with
    | none =>
      rw [loop, hturn] at h
      cases h
    | some t =>
      rw [loop_resume hturn] at h
      have hsat := turn_push_prefix hturn
      cases t with
      | next s' => exact hsat.trans (ih h)
      | exit r' =>
        obtain rfl := Option.some.inj h
        exact hsat

/-- The special opcode of an entry, after the sum wrapped. -/
def wrappedOp (MinLineDelta MaxLineDelta : Int) (Prev Curr : LineEntry) : Nat :=
  (specialValue MinLineDelta MaxLineDelta (lineDelta Prev Curr) (Curr.Addr - Prev.Addr) + 4) % 2 ^ 64

/-- The first opcode that wrapped takes no operand, so the parser sees a row or the end there. -/
def Misread (MinLineDelta MaxLineDelta : Int) : LineEntry → List LineEntry → Prop
  | _, [] => False
  | Prev, Curr :: rest =>
    Wraps MinLineDelta MaxLineDelta Prev Curr ∧
        (wrappedOp MinLineDelta MaxLineDelta Prev Curr = 0 ∨
          4 ≤ wrappedOp MinLineDelta MaxLineDelta Prev Curr) ∨
      ¬Wraps MinLineDelta MaxLineDelta Prev Curr ∧ Misread MinLineDelta MaxLineDelta Curr rest

theorem Wraps.addrDelta (hrange : UsableRange MinLineDelta MaxLineDelta)
    (h : Wraps MinLineDelta MaxLineDelta Prev Curr) : 256 ≤ (Curr.Addr - Prev.Addr).toNat := by
  obtain ⟨⟨hlo, hhi⟩, hlarge, -⟩ := h
  have hsize := hrange.size
  unfold MaxLineRange at hsize
  unfold specialValue at hlarge
  by_contra hsmall
  have hprod : (Curr.Addr - Prev.Addr).toNat * (MaxLineDelta - MinLineDelta + 1).toNat ≤ 255 * 15 :=
    Nat.mul_le_mul (by omega) (by omega)
  omega

theorem Wraps.encodeEntry (hrange : UsableRange MinLineDelta MaxLineDelta)
    (h : Wraps MinLineDelta MaxLineDelta Prev Curr) :
    encodeEntry MinLineDelta MaxLineDelta Prev Curr =
      encodeFile Prev Curr ++ [UInt8.ofNat (wrappedOp MinLineDelta MaxLineDelta Prev Curr)] := by
  unfold Gsym.encodeEntry wrappedOp
  dsimp only
  rw [encodeSpecial_eq hrange, if_pos ⟨h.1, h.2.2⟩]

theorem wrapped_loop (hrange : UsableRange MinLineDelta MaxLineDelta)
    (hwrap : Wraps MinLineDelta MaxLineDelta Prev Curr)
    (hop : wrappedOp MinLineDelta MaxLineDelta Prev Curr = 0 ∨
      4 ≤ wrappedOp MinLineDelta MaxLineDelta Prev Curr) {Offset : Nat} {acc : List LineEntry}
    (h : d.At Offset (encodeFile Prev Curr ++
      [UInt8.ofNat (wrappedOp MinLineDelta MaxLineDelta Prev Curr)]))
    (hturns : (encodeFile Prev Curr).length < turns)
    (hloop : loop (rangeTurn d MinLineDelta MaxLineDelta push) turns ⟨Offset, Prev, acc⟩ = some r)
    (rest : List LineEntry) : r.2 ≠ acc ++ Curr :: rest := by
  have hsmall : wrappedOp MinLineDelta MaxLineDelta Prev Curr ≤ 255 := hwrap.2.2
  have hfile : Leads (rangeTurn d MinLineDelta MaxLineDelta push) (encodeFile Prev Curr).length
      ⟨Offset, Prev, acc⟩
      ⟨Offset + (encodeFile Prev Curr).length, { Prev with File := Curr.File }, acc⟩ :=
    encodeFile_leads h.left
  have hlast := h.right
  generalize wrappedOp MinLineDelta MaxLineDelta Prev Curr = Op at hop hsmall hlast
  obtain ⟨m, hm, hleads⟩ := hfile
  obtain ⟨k, rfl⟩ : ∃ k, turns = m + (k + 1) := ⟨turns - m - 1, by omega⟩
  rw [hleads] at hloop
  rcases hop with rfl | hop
  · rw [loop_resume (turn_end hlast)] at hloop
    obtain rfl := Option.some.inj hloop
    intro heq
    have hlength := congrArg List.length heq
    simp at hlength
  · -- The line delta and the address delta that the opcode stands for.
    have hle := hrange.le
    have hR : 0 < (MaxLineDelta - MinLineDelta + 1).toNat := by omega
    have hmod := Nat.mod_lt (Op - 4) hR
    have hdivmod := Nat.mod_add_div (Op - 4) (MaxLineDelta - MinLineDelta + 1).toNat
    have hdiv := Nat.div_le_self (Op - 4) (MaxLineDelta - MinLineDelta + 1).toNat
    have hin : InRange MinLineDelta MaxLineDelta
        (MinLineDelta + ((Op - 4) % (MaxLineDelta - MinLineDelta + 1).toNat : Nat)) := by
      constructor <;> omega
    have hop' : (UInt8.ofNat Op).toNat = (MinLineDelta +
        ((Op - 4) % (MaxLineDelta - MinLineDelta + 1).toNat : Nat) - MinLineDelta).toNat +
        (Op - 4) / (MaxLineDelta - MinLineDelta + 1).toNat *
          (MaxLineDelta - MinLineDelta + 1).toNat + 4 := by
      rw [UInt8.toNat_ofNat', Nat.mod_eq_of_lt (by omega), add_sub_cancel_left, Int.toNat_natCast,
        Nat.mul_comm, hdivmod]
      omega
    rw [loop_resume (turn_special hrange hin hop' hlast)] at hloop
    have hpre := loop_push_prefix hloop
    intro heq
    rw [heq] at hpre
    obtain ⟨tail, htail⟩ := hpre
    rw [List.append_assoc] at htail
    have hrow := (List.cons.inj (List.append_cancel_left htail)).1
    have haddr := congrArg LineEntry.Addr hrow
    have hlarge := hwrap.addrDelta hrange
    rw [← haddr, add_sub_cancel_left, BitVec.toNat_ofNat] at hlarge
    have hsmallDiv := hlarge.trans ((Nat.mod_le _ _).trans hdiv)
    omega

theorem misread_loop (hrange : UsableRange MinLineDelta MaxLineDelta) {BaseAddr : BitVec 64}
    {rest : List LineEntry} {Offset : Nat} {acc : List LineEntry}
    (hencode : encodeEntries MinLineDelta MaxLineDelta BaseAddr Prev rest = .ok bytes)
    (hmis : Misread MinLineDelta MaxLineDelta Prev rest)
    (h : d.At Offset (bytes ++ [EndSequence])) (hturns : bytes.length < turns)
    (hloop : loop (rangeTurn d MinLineDelta MaxLineDelta push) turns ⟨Offset, Prev, acc⟩ = some r) :
    r.2 ≠ acc ++ rest := by
  induction rest generalizing Prev bytes Offset acc turns with
  | nil => exact hmis.elim
  | cons Curr rest ih =>
    unfold encodeEntries at hencode
    split_ifs at hencode
    cases hrest : encodeEntries MinLineDelta MaxLineDelta BaseAddr Curr rest with
    | error e =>
      rw [hrest] at hencode
      exact nomatch hencode
    | ok bytes' =>
      rw [hrest] at hencode
      obtain rfl := Except.ok.inj hencode
      rw [List.append_assoc] at h
      rw [List.length_append] at hturns
      have hpos := encodeEntry_length_pos MinLineDelta MaxLineDelta Prev Curr
      rcases hmis with ⟨hwrap, hop⟩ | ⟨hwrap, hmis⟩
      · rw [hwrap.encodeEntry hrange] at h hturns
        rw [List.length_append] at hturns
        exact wrapped_loop hrange hwrap hop h.left (by omega) hloop rest
      · obtain ⟨s, ⟨m, hm, hleads⟩, hturn⟩ := encodeEntry_leads push acc hrange hwrap h.left
        obtain ⟨k, rfl⟩ : ∃ k, turns = m + (k + 1) := ⟨turns - m - 1, by omega⟩
        rw [hleads, loop_resume hturn] at hloop
        have hne := ih hrest hmis h.right (by omega) hloop
        rw [List.append_assoc] at hne
        exact hne

end Misread

/-- The bytes cannot be written, or the first opcode that wrapped is read as another row or the end. -/
def Unreadable (Lines : List LineEntry) (BaseAddr : BitVec 64) : Prop :=
  TooManyDeltas Lines ∨ ∃ first ∈ Lines.head?, ∃ range ∈ lineDeltaRange Lines,
    Misread range.1 range.2 ⟨BaseAddr, 1, first.Line⟩ Lines

theorem not_roundTrips_of_unreadable {first : LineEntry} {rest : List LineEntry}
    {BaseAddr : BitVec 64} (h : Unreadable (first :: rest) BaseAddr) :
    ¬RoundTrips (first :: rest) BaseAddr := by
  rintro ⟨bytes, hencode, hread⟩
  by_cases hmany : TooManyDeltas (first :: rest)
  · simp only [encode, lineDeltaRange_tooMany hmany, Option.bind_eq_bind, Option.bind_none] at hencode
    exact nomatch hencode
  · obtain ⟨_, hfirst, ⟨MinLineDelta, MaxLineDelta⟩, hpick, hmis⟩ := h.resolve_left hmany
    obtain rfl := Option.some.inj hfirst
    obtain ⟨_, _, hpick', hrange⟩ := lineDeltaRange_usable hmany
    obtain ⟨rfl, rfl⟩ := Prod.mk.inj (Option.some.inj (hpick.symm.trans hpick'))
    obtain ⟨body, hentries, rfl⟩ := encode_eq_ok hpick hencode
    obtain ⟨d, hd⟩ : ∃ d : DataExtractor, d.Data =
        encodeHeader MinLineDelta MaxLineDelta first.Line ++ (body ++ [EndSequence]) :=
      ⟨⟨_, true⟩, rfl⟩
    obtain ⟨hdecode, -⟩ := hread d hd
    have hat : d.At 0
        (encodeHeader MinLineDelta MaxLineDelta first.Line ++ (body ++ [EndSequence])) :=
      ⟨[], by rw [hd, List.drop_zero, List.append_nil]⟩
    have hbody := hat.right
    have hlen := hat.length_le
    rw [Nat.zero_add] at hbody
    rw [List.length_append, List.length_append] at hlen
    unfold decode at hdecode
    obtain ⟨⟨Err, Lines⟩, hparse, hresult⟩ := Option.map_eq_some_iff.mp hdecode
    rw [parse_header _ BaseAddr first.Line [] hat] at hparse
    have hne := misread_loop hrange hentries hmis hbody (by omega) hparse
    cases Err with
    | error e => exact nomatch hresult
    | ok _ => exact hne (Except.ok.inj hresult)

/--
Every table is read back entry by entry and by lookups, unless the deltas are too
many or an address delta wraps its opcode; a table whose first opcode that
wrapped has no operand is never read back.
-/
theorem roundTrips_cases {first : LineEntry} {rest : List LineEntry} {BaseAddr : BitVec 64}
    (h : Ascending (first :: rest) BaseAddr) :
    (Representable (first :: rest) BaseAddr → RoundTrips (first :: rest) BaseAddr) ∧
      (Unreadable (first :: rest) BaseAddr → ¬RoundTrips (first :: rest) BaseAddr) :=
  ⟨roundTrips_of_representable h, not_roundTrips_of_unreadable⟩

/-- Two files, a jump that needs its own opcodes and one that does not. -/
def smallTable : List LineEntry := [⟨5, 1, 10⟩, ⟨9, 2, 1100⟩, ⟨10, 2, 1101⟩]

theorem smallTable_roundTrips : RoundTrips smallTable 5 := by
  have hsorted : Ascending smallTable 5 := by
    constructor <;> decide
  refine (roundTrips_cases hsorted).1 ⟨?_, ?_⟩
  · rintro ⟨-, hmany⟩
    exact absurd hmany (by decide)
  · rintro _ ⟨⟩ _ ⟨⟩
    exact ⟨by decide, by decide, by decide, trivial⟩

/-- Two line deltas, so an address delta of 2^63 vanishes from its opcode. -/
def jumpTable : List LineEntry := [⟨0, 1, 10⟩, ⟨0, 1, 11⟩, ⟨0x8000000000000000, 1, 11⟩]

theorem jumpTable_not_roundTrips : Ascending jumpTable 0 ∧ ¬RoundTrips jumpTable 0 := by
  refine ⟨by constructor <;> decide, not_roundTrips_of_unreadable (Or.inr ?_)⟩
  refine ⟨_, rfl, _, rfl, Or.inr ⟨by decide, Or.inr ⟨by decide, Or.inl ⟨by decide, ?_⟩⟩⟩⟩
  decide

end SmlnjLlvm.Gsym
