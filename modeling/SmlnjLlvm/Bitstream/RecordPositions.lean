import SmlnjLlvm.Bitstream.BitstreamCursor
import SmlnjLlvm.Bitstream.CursorPositions

/-!
# Where the calls of the cursor lead

A cursor stands at a bit within a block scope. Reading, jumping and seeking a
boundary change the bit only, and a field of fixed width always takes as many
bits as it is wide.
-/

namespace SmlnjLlvm.Bitstream

open BitString

/-- The widths that `ReadAbbrevRecord` lets through. -/
def BitCodeAbbrevOp.WellFormed : BitCodeAbbrevOp → Prop
  | .encoding .Fixed Val => 1 ≤ Val.toNat ∧ Val.toNat ≤ 32
  | .encoding .VBR Val => 1 ≤ Val.toNat ∧ Val.toNat ≤ 32
  | _ => True

def WellFormedAbbrev (Abbv : BitCodeAbbrev) : Prop :=
  Abbv ≠ [] ∧ ∀ Op ∈ Abbv, Op.WellFormed

theorem toNat_width {Val : BitVec 64} (h : 1 ≤ Val.toNat ∧ Val.toNat ≤ 32) :
    (Val.setWidth 32).toNat = Val.toNat := by
  rw [BitVec.toNat_setWidth, Nat.mod_eq_of_lt (by omega)]

namespace BitstreamCursor

open SimpleBitstreamCursor (At skipTarget)

variable {α : Type}

/-- Everything but where the cursor stands. -/
def scope (c : BitstreamCursor) :
    Nat × List BitCodeAbbrev × List Block × Option BitstreamBlockInfo :=
  (c.CurCodeSize, c.CurAbbrevs, c.BlockScope, c.BlockInfo)

theorem bits_eq_ok {m : SimpleBitstreamCursor.Run α} {c c' : BitstreamCursor} {a : α} :
    bits m c = .ok (a, c') ↔ ∃ s, m c.toSimpleBitstreamCursor = .ok (a, s) ∧
      { c with toSimpleBitstreamCursor := s } = c' := by
  rw [bits]
  cases m c.toSimpleBitstreamCursor with
  | ok r =>
    constructor
    · intro h
      cases h
      exact ⟨r.2, rfl, rfl⟩
    · intro h
      obtain ⟨s, hr, rfl⟩ := h
      cases hr
      rfl
  | error e => simp [Outcome.bind]
  | stuck => simp [Outcome.bind]

theorem bits_of_ok {m : SimpleBitstreamCursor.Run α} {c : BitstreamCursor} {a : α}
    {s : SimpleBitstreamCursor} (h : m c.toSimpleBitstreamCursor = .ok (a, s)) :
    bits m c = .ok (a, { c with toSimpleBitstreamCursor := s }) :=
  bits_eq_ok.mpr ⟨s, h, rfl⟩

theorem bits_scope {m : SimpleBitstreamCursor.Run α} {c c' : BitstreamCursor} {a : α}
    (h : bits m c = .ok (a, c')) : c'.scope = c.scope := by
  obtain ⟨s, -, rfl⟩ := bits_eq_ok.mp h
  rfl

/-- The cursor stands at a bit of the string, within a scope. -/
structure Stands (bytes : Bytes)
    (sc : Nat × List BitCodeAbbrev × List Block × Option BitstreamBlockInfo) (pos : Nat)
    (c : BitstreamCursor) : Prop where
  position : At c.toSimpleBitstreamCursor bytes pos
  scope_eq : c.scope = sc

namespace Stands

variable {bytes : Bytes} {sc : Nat × List BitCodeAbbrev × List Block × Option BitstreamBlockInfo}
  {pos : Nat} {c c' : BitstreamCursor}

theorem pos_le (h : Stands bytes sc pos c) : pos ≤ size bytes := h.position.pos_le

theorem bitNo (h : Stands bytes sc pos c) : c.GetCurrentBitNo = pos := h.position.bitNo

theorem moved (h : Stands bytes sc pos c) {pos' : Nat} {s : SimpleBitstreamCursor}
    (hs : At s bytes pos') : Stands bytes sc pos' { c with toSimpleBitstreamCursor := s } :=
  ⟨hs, h.scope_eq⟩

theorem of_read (h : Stands bytes sc pos c) {n : Nat} (hn : 1 ≤ n ∧ n ≤ 64) {v : BitVec 64}
    (hread : Read n c = .ok (v, c')) : pos + n ≤ size bytes ∧ Stands bytes sc (pos + n) c' := by
  obtain ⟨s, hs, rfl⟩ := bits_eq_ok.mp hread
  have hpos := h.position.of_read hn hs
  exact ⟨hpos.1, h.moved hpos.2⟩

theorem read (h : Stands bytes sc pos c) {n : Nat} (hn : 1 ≤ n ∧ n ≤ 64)
    (hle : pos + n ≤ size bytes) :
    ∃ v c', Read n c = .ok (v, c') ∧ v.toNat < 2 ^ n ∧ Stands bytes sc (pos + n) c' := by
  obtain ⟨s, hs, hpos⟩ := h.position.read hn hle
  refine ⟨_, _, bits_of_ok hs, ?_, h.moved hpos⟩
  rw [BitVec.toNat_ofNat]
  exact Nat.mod_lt_of_lt (bitsAt_lt pos n)

theorem of_readVBR (h : Stands bytes sc pos c) {n : Nat} (hn : 1 ≤ n ∧ n ≤ 32) {v : BitVec 32}
    (hread : ReadVBR n c = .ok (v, c')) : ∃ pos', pos + n ≤ pos' ∧ Stands bytes sc pos' c' := by
  obtain ⟨s, hs, rfl⟩ := bits_eq_ok.mp hread
  obtain ⟨pos', hle, hpos⟩ := h.position.of_readVBR hn (by decide) hs
  exact ⟨pos', hle, h.moved hpos⟩

theorem of_readVBR64 (h : Stands bytes sc pos c) {n : Nat} (hn : 1 ≤ n ∧ n ≤ 32) {v : BitVec 64}
    (hread : ReadVBR64 n c = .ok (v, c')) : ∃ pos', pos + n ≤ pos' ∧ Stands bytes sc pos' c' := by
  obtain ⟨s, hs, rfl⟩ := bits_eq_ok.mp hread
  obtain ⟨pos', hle, hpos⟩ := h.position.of_readVBR hn (by decide) hs
  exact ⟨pos', hle, h.moved hpos⟩

theorem skip (h : Stands bytes sc pos c) :
    ∃ c', SkipToFourByteBoundary c = .ok ((), c') ∧
      Stands bytes sc (skipTarget bytes pos) c' := by
  obtain ⟨s, hs, hpos⟩ := h.position.skip
  exact ⟨_, bits_of_ok hs, h.moved hpos⟩

theorem jump (h : Stands bytes sc pos c) {b : Nat} (hb : b ≤ size bytes) :
    ∃ c', JumpToBit b c = .ok ((), c') ∧ Stands bytes sc b c' := by
  obtain ⟨s, hs, hpos⟩ := h.position.jump hb
  exact ⟨_, bits_of_ok hs, h.moved hpos⟩

theorem of_jump (h : Stands bytes sc pos c) {b : Nat} (hjump : JumpToBit b c = .ok ((), c')) :
    b ≤ size bytes ∧ Stands bytes sc b c' := by
  obtain ⟨s, hs, rfl⟩ := bits_eq_ok.mp hjump
  have hpos := h.position.of_jump hs
  exact ⟨hpos.1, h.moved hpos.2⟩

end Stands

/-! ## Fields -/

variable {bytes : Bytes} {sc : Nat × List BitCodeAbbrev × List Block × Option BitstreamBlockInfo}

/-- A read that takes `w` bits, and fails only where they are not left. -/
def Takes (bytes : Bytes)
    (sc : Nat × List BitCodeAbbrev × List Block × Option BitstreamBlockInfo) (w : Nat)
    (read : Run (BitVec 64)) : Prop :=
  ∀ c pos, Stands bytes sc pos c →
    (pos + w ≤ size bytes → ∃ v c', read c = .ok (v, c') ∧ Stands bytes sc (pos + w) c') ∧
    ∀ v c', read c = .ok (v, c') → pos + w ≤ size bytes ∧ Stands bytes sc (pos + w) c'

/-- A read that moves the cursor forward. -/
def Advances (bytes : Bytes)
    (sc : Nat × List BitCodeAbbrev × List Block × Option BitstreamBlockInfo)
    (read : Run (BitVec 64)) : Prop :=
  ∀ c pos v c', Stands bytes sc pos c → read c = .ok (v, c') →
    ∃ pos', pos < pos' ∧ Stands bytes sc pos' c'

theorem takes_read {w : Nat} (hw : 1 ≤ w ∧ w ≤ 64) : Takes bytes sc w (Read w) := by
  intro c pos hc
  refine ⟨fun hle => ?_, fun v c' hread => hc.of_read hw hread⟩
  obtain ⟨v, c', hread, -, hc'⟩ := hc.read hw hle
  exact ⟨v, c', hread, hc'⟩

theorem char6Table_length : char6Table.length = 64 := by decide

theorem DecodeChar6_of_lt {V : BitVec 32} (h : V.toNat < 64) :
    ∃ v, (DecodeChar6 V : Run (BitVec 64)) = pure v := by
  rw [DecodeChar6, List.getElem?_eq_getElem (by rw [char6Table_length]; exact h)]
  exact ⟨_, rfl⟩

/-- A character of six bits. -/
def readChar6 : Run (BitVec 64) := do
  let MaybeVal ← Read 6
  DecodeChar6 (MaybeVal.setWidth 32)

theorem toNat_six_bits {v : BitVec 64} (h : v.toNat < 2 ^ 6) : (v.setWidth 32).toNat < 64 := by
  rw [BitVec.toNat_setWidth]
  omega

theorem takes_char6 : Takes bytes sc 6 readChar6 := by
  intro c pos hc
  have hrun (hle : pos + 6 ≤ size bytes) :
      ∃ v c', readChar6 c = .ok (v, c') ∧ Stands bytes sc (pos + 6) c' := by
    obtain ⟨v, c', hread, hlt, hc'⟩ := hc.read (by decide) hle
    obtain ⟨v', hv'⟩ := DecodeChar6_of_lt (toNat_six_bits hlt)
    refine ⟨v', c', ?_, hc'⟩
    rw [readChar6, Call.bind_of_ok hread, hv', Call.pure_run]
  refine ⟨hrun, fun v c' h => ?_⟩
  obtain ⟨v₁, c₁, hread, -⟩ := Call.bind_eq_ok.mp h
  have hle := (hc.of_read (by decide) hread).1
  obtain ⟨v₂, c₂, hrun', hc₂⟩ := hrun hle
  rw [hrun'] at h
  cases h
  exact ⟨hle, hc₂⟩

theorem Takes.advances {w : Nat} {read : Run (BitVec 64)} (h : Takes bytes sc w read)
    (hw : 1 ≤ w) : Advances bytes sc read := by
  intro c pos v c' hc hread
  exact ⟨pos + w, by omega, ((h c pos hc).2 v c' hread).2⟩

theorem advances_readVBR64 {w : Nat} (hw : 1 ≤ w ∧ w ≤ 32) :
    Advances bytes sc (ReadVBR64 w) := by
  intro c pos v c' hc hread
  obtain ⟨pos', hle, hc'⟩ := hc.of_readVBR64 hw hread
  exact ⟨pos', by omega, hc'⟩

theorem assert_bind {p : Prop} [Decidable p] (hp : p) (m : Run α) :
    (do Call.assert p; m : Run α) = m := by
  rw [Call.assert_of hp, pure_bind]

theorem advances_field {Op : BitCodeAbbrevOp} (hop : Op.WellFormed) :
    Advances bytes sc (readAbbreviatedField Op) := by
  cases Op with
  | literal Val =>
    intro c pos v c' _ h
    cases h
  | encoding Enc Val =>
    cases Enc with
    | Fixed =>
      have hwidth := toNat_width hop
      rw [readAbbreviatedField, assert_bind (by rw [hwidth]; exact hop.2), hwidth]
      exact (takes_read ⟨hop.1, by have := hop.2; omega⟩).advances hop.1
    | VBR =>
      have hwidth := toNat_width hop
      rw [readAbbreviatedField, assert_bind (by rw [hwidth]; exact hop.2), hwidth]
      exact advances_readVBR64 hop
    | Array =>
      intro c pos v c' _ h
      cases h
    | Char6 => exact takes_char6.advances (by decide)
    | Blob =>
      intro c pos v c' _ h
      cases h

/-- An operand that is read as one field. -/
def BitCodeAbbrevOp.IsField : BitCodeAbbrevOp → Prop
  | .encoding .Fixed _ => True
  | .encoding .VBR _ => True
  | .encoding .Char6 _ => True
  | _ => False

theorem readOperands_field {Op : BitCodeAbbrevOp} (hop : BitCodeAbbrevOp.IsField Op)
    (wanted : Bool) (Ops : List BitCodeAbbrevOp) (r : RecordData) :
    readOperands wanted (Op :: Ops) r = (do
      let MaybeVal ← readAbbreviatedField Op
      readOperands wanted Ops (r.push MaybeVal)) := by
  cases Op with
  | literal Val => exact hop.elim
  | encoding Enc Val => cases Enc <;> first | rfl | exact hop.elim

theorem skipOperands_field {Op : BitCodeAbbrevOp} (hop : BitCodeAbbrevOp.IsField Op)
    (Ops : List BitCodeAbbrevOp) :
    skipOperands (Op :: Ops) = (do
      let _ ← readAbbreviatedField Op
      skipOperands Ops) := by
  cases Op with
  | literal Val => exact hop.elim
  | encoding Enc Val => cases Enc <;> first | rfl | exact hop.elim

theorem skipMany_ok_of_readMany {read : Run (BitVec 64)} {n : Nat} :
    ∀ {r r' : RecordData} {c c' : BitstreamCursor}, readMany read n r c = .ok (r', c') →
      skipMany read n c = .ok ((), c') := by
  induction n with
  | zero =>
    intro r r' c c' h
    cases h
    rfl
  | succ n ih =>
    intro r r' c c' h
    obtain ⟨v, c₁, hread, hrest⟩ := Call.bind_eq_ok.mp h
    rw [skipMany, Call.bind_of_ok hread]
    exact ih hrest

theorem readMany_ok_of_skipMany {read : Run (BitVec 64)} {n : Nat} :
    ∀ (r : RecordData) {c c' : BitstreamCursor}, skipMany read n c = .ok ((), c') →
      ∃ r', readMany read n r c = .ok (r', c') := by
  induction n with
  | zero =>
    intro r c c' h
    cases h
    exact ⟨r, rfl⟩
  | succ n ih =>
    intro r c c' h
    obtain ⟨v, c₁, hread, hrest⟩ := Call.bind_eq_ok.mp h
    rw [readMany, Call.bind_of_ok hread]
    exact ih _ hrest

theorem Advances.skipMany {read : Run (BitVec 64)} (hread : Advances bytes sc read) {n : Nat} :
    ∀ {c c' : BitstreamCursor} {pos : Nat}, Stands bytes sc pos c →
      skipMany read n c = .ok ((), c') → ∃ pos', pos + n ≤ pos' ∧ Stands bytes sc pos' c' := by
  induction n with
  | zero =>
    intro c c' pos hc h
    cases h
    exact ⟨pos, Nat.le_refl _, hc⟩
  | succ n ih =>
    intro c c' pos hc h
    obtain ⟨v, c₁, hone, hrest⟩ := Call.bind_eq_ok.mp h
    obtain ⟨pos₁, hlt, hc₁⟩ := hread c pos v c₁ hc hone
    obtain ⟨pos', hle, hc'⟩ := ih hc₁ hrest
    exact ⟨pos', by omega, hc'⟩

theorem Takes.of_skipMany {w : Nat} {read : Run (BitVec 64)} (hread : Takes bytes sc w read)
    {n : Nat} : ∀ {c c' : BitstreamCursor} {pos : Nat}, Stands bytes sc pos c →
      BitstreamCursor.skipMany read n c = .ok ((), c') →
      pos + n * w ≤ size bytes ∧ Stands bytes sc (pos + n * w) c' := by
  induction n with
  | zero =>
    intro c c' pos hc h
    cases h
    rw [Nat.zero_mul]
    exact ⟨hc.pos_le, hc⟩
  | succ n ih =>
    intro c c' pos hc h
    obtain ⟨v, c₁, hone, hrest⟩ := Call.bind_eq_ok.mp h
    have hc₁ := ((hread c pos hc).2 v c₁ hone).2
    have hnext := ih hc₁ hrest
    rwa [show pos + w + n * w = pos + (n + 1) * w from by rw [Nat.succ_mul]; omega] at hnext

theorem Takes.skipMany {w : Nat} {read : Run (BitVec 64)} (hread : Takes bytes sc w read)
    {n : Nat} : ∀ {c : BitstreamCursor} {pos : Nat}, Stands bytes sc pos c →
      pos + n * w ≤ size bytes → ∃ c', BitstreamCursor.skipMany read n c = .ok ((), c') := by
  induction n with
  | zero =>
    intro c pos _ _
    exact ⟨c, rfl⟩
  | succ n ih =>
    intro c pos hc hle
    rw [Nat.succ_mul] at hle
    obtain ⟨v, c₁, hone, hc₁⟩ := (hread c pos hc).1 (by omega)
    obtain ⟨c', hrest⟩ := ih hc₁ (by omega)
    exact ⟨c', (Call.bind_of_ok hone).trans hrest⟩

theorem readPlausibleSize_ok {c c' : BitstreamCursor} {NumElts : BitVec 32} :
    readPlausibleSize c = .ok (NumElts, c') ↔
      ReadVBR 6 c = .ok (NumElts, c') ∧ c'.isSizePlausible NumElts.toNat = true := by
  have hsize (v : BitVec 32) (c₁ : BitstreamCursor) :
      readSize c = .ok (v, c₁) ↔ ReadVBR 6 c = .ok (v, c₁) := by
    rw [readSize]
    cases ReadVBR 6 c <;> simp
  rw [readPlausibleSize, Call.bind_eq_ok]
  constructor
  · intro h
    obtain ⟨v, c₁, hread, hrest⟩ := h
    rw [Call.bind_of_ok (Call.get_run c₁)] at hrest
    split at hrest
    · next hplausible =>
      cases hrest
      exact ⟨(hsize _ _).mp hread, hplausible⟩
    · cases hrest
  · intro h
    refine ⟨NumElts, c', (hsize _ _).mpr h.1, ?_⟩
    rw [Call.bind_of_ok (Call.get_run c'), if_pos h.2, Call.pure_run]

theorem plausible_of_stands {c : BitstreamCursor} {pos pos' n : Nat} (hc : Stands bytes sc pos c)
    (hpos : 1 ≤ pos) (hle : pos + n ≤ pos') (hend : pos' ≤ size bytes) :
    c.isSizePlausible n = true := by
  rw [size] at hend
  rw [SimpleBitstreamCursor.isSizePlausible, hc.position.bytes_eq]
  exact decide_eq_true (by omega)

theorem abbrevEncoding_ok {c c₂ c' : BitstreamCursor} {E : Encoding} {Op : BitCodeAbbrevOp}
    (hscope : c₂.scope = c.scope)
    (h : (if E.hasEncodingData then do
        let Data ← ReadVBR64 5
        if (E = .Fixed ∨ E = .VBR) ∧ Data = 0 then
          pure (.literal 0)
        else if (E = .Fixed ∨ E = .VBR) ∧ MaxChunkSize < Data.toNat then
          error "Fixed or VBR abbrev record with size > MaxChunkData"
        else
          pure (.encoding E Data)
      else
        pure (.encoding E 0) : Run BitCodeAbbrevOp) c₂ = .ok (Op, c')) :
    Op.WellFormed ∧ c'.scope = c.scope := by
  split at h
  · next hdata =>
    obtain ⟨Data, c₃, hread', h⟩ := Call.bind_eq_ok.mp h
    have hscope₃ := (bits_scope hread').trans hscope
    have hE' : E = .Fixed ∨ E = .VBR := by
      cases E
      case Fixed => exact .inl rfl
      case VBR => exact .inr rfl
      all_goals cases hdata
    split at h
    · cases h
      exact ⟨trivial, hscope₃⟩
    · next hzero =>
      split at h
      · cases h
      · next hbig =>
        cases h
        refine ⟨?_, hscope₃⟩
        have hne : Data ≠ 0 := fun hD => hzero ⟨hE', hD⟩
        have hle : ¬MaxChunkSize < Data.toNat := fun hD => hbig ⟨hE', hD⟩
        have hpos : Data.toNat ≠ 0 := fun hD => hne (BitVec.eq_of_toNat_eq hD)
        rw [MaxChunkSize] at hle
        have hwidth : 1 ≤ Data.toNat ∧ Data.toNat ≤ 32 := by omega
        cases E
        case Fixed => exact hwidth
        case VBR => exact hwidth
        all_goals cases hdata
  · next hdata =>
    cases h
    refine ⟨?_, hscope⟩
    cases E
    case Fixed => exact absurd rfl hdata
    case VBR => exact absurd rfl hdata
    all_goals trivial

theorem readAbbrevOp_ok {c c' : BitstreamCursor} {Op : BitCodeAbbrevOp}
    (h : readAbbrevOp c = .ok (Op, c')) : Op.WellFormed ∧ c'.scope = c.scope := by
  obtain ⟨IsLiteral, c₁, hflag, h⟩ := Call.bind_eq_ok.mp h
  have hscope₁ := bits_scope hflag
  split at h
  · obtain ⟨v, c₂, hread, h⟩ := Call.bind_eq_ok.mp h
    cases h
    exact ⟨trivial, (bits_scope hread).trans hscope₁⟩
  · obtain ⟨MaybeEncoding, c₂, hread, h⟩ := Call.bind_eq_ok.mp h
    have hscope₂ := (bits_scope hread).trans hscope₁
    cases hE : Encoding.ofNat? MaybeEncoding.toNat with
    | none =>
      rw [hE] at h
      cases h
    | some E =>
      rw [hE] at h
      exact abbrevEncoding_ok hscope₂ h

theorem readAbbrevOps_ok {n : Nat} : ∀ {c c' : BitstreamCursor} {Ops : BitCodeAbbrev},
    readAbbrevOps n c = .ok (Ops, c') → (∀ Op ∈ Ops, Op.WellFormed) ∧ c'.scope = c.scope := by
  induction n with
  | zero =>
    intro c c' Ops h
    cases h
    exact ⟨fun Op hop => absurd hop List.not_mem_nil, rfl⟩
  | succ n ih =>
    intro c c' Ops h
    obtain ⟨Op, c₁, hread, h⟩ := Call.bind_eq_ok.mp h
    obtain ⟨Ops', c₂, hrest, h⟩ := Call.bind_eq_ok.mp h
    cases h
    have hop := readAbbrevOp_ok hread
    have hops := ih hrest
    exact ⟨List.forall_mem_cons.mpr ⟨hop.1, hops.1⟩, hops.2.trans hop.2⟩

theorem ReadAbbrevRecord_ok {c c' : BitstreamCursor} (h : ReadAbbrevRecord c = .ok ((), c')) :
    ∃ Abbv, WellFormedAbbrev Abbv ∧
      c'.scope = (c.CurCodeSize, c.CurAbbrevs ++ [Abbv], c.BlockScope, c.BlockInfo) := by
  obtain ⟨NumOpInfo, c₁, hsize, h⟩ := Call.bind_eq_ok.mp h
  obtain ⟨Abbv, c₂, hops, h⟩ := Call.bind_eq_ok.mp h
  split at h
  · cases h
  · next hlen =>
    cases h
    have hwf := readAbbrevOps_ok hops
    have hscope := hwf.2.trans (bits_scope hsize)
    refine ⟨Abbv, ⟨fun hnil => hlen (by rw [hnil]; rfl), hwf.1⟩, ?_⟩
    simp only [scope, Prod.mk.injEq] at hscope ⊢
    rw [hscope.1, hscope.2.1, hscope.2.2.1, hscope.2.2.2]
    exact ⟨rfl, rfl, rfl, rfl⟩

end BitstreamCursor

end SmlnjLlvm.Bitstream
