import SmlnjLlvm.DebugInfo.GsymLineTable

/-!
# Faults of the line table parser

The parser again, with what C++ leaves undefined and with the ends of the
numbers it reads. It ends for all data; the data it takes without a fault are
those of a grammar.
-/

namespace SmlnjLlvm.Gsym

open Base128 LEB128 Loop

inductive Fault
  | cutOff
  | shift
  | divisionByZero
  | overflow
  deriving DecidableEq, Repr

/-- The data end before the last byte of a number. -/
def CutOff (bytes : List UInt8) : Prop := ∀ b ∈ bytes, Continues b

instance (bytes : List UInt8) : Decidable (CutOff bytes) :=
  inferInstanceAs (Decidable (∀ b ∈ bytes, Continues b))

/-- The result of a computation with signed 64-bit numbers. -/
def int64 (x : Int) : Except Fault Int :=
  if -2 ^ 63 ≤ x ∧ x < 2 ^ 63 then .ok x else .error .overflow

/-- The value of a number and the offset after it; a number that does not fit is zero. -/
def readNumber (d : DataExtractor) (decode : Bool → List UInt8 → Option Decoded) (Offset : Nat) :
    Except Fault (BitVec 64 × Nat) :=
  let bytes := d.Data.drop Offset
  if CutOff bytes then .error .cutOff
  else
    match decode true bytes with
    | none => .error .shift
    | some r => .ok (if r.error.isSome then (0, Offset) else (r.value, Offset + r.n))

section Parse

variable {σ : Type} (d : DataExtractor)

/-- One opcode. -/
def checkedOp (MinDelta LineRange : Int) (Callback : LineEntry → σ → σ × Bool) (s : ParseState σ) :
    Except Fault (Turn (ParseState σ) (ParseResult σ)) :=
  if d.Data.length ≤ s.Offset then
    .ok (.exit (.error (.atOffset s.Offset "EOF found before EndSequence"), s.acc))
  else
    let (Op, C) := d.getU8 (.start s.Offset)
    match Op.toNat with
    | 0 => .ok (.exit (.ok (), s.acc))
    | 1 =>
      if d.Data.length ≤ C.Offset then
        .ok (.exit (.error (.atOffset C.Offset "EOF found before SetFile value"), s.acc))
      else do
        let (File, Offset) ← readNumber d decodeULEB128 C.Offset
        .ok (.next { s with Offset, Row := { s.Row with File := File.setWidth 32 } })
    | 2 =>
      if d.Data.length ≤ C.Offset then
        .ok (.exit (.error (.atOffset C.Offset "EOF found before AdvancePC value"), s.acc))
      else do
        let (AddrDelta, Offset) ← readNumber d decodeULEB128 C.Offset
        .ok (emitRow Callback
          { s with Offset, Row := { s.Row with Addr := s.Row.Addr + AddrDelta } })
    | 3 =>
      if d.Data.length ≤ C.Offset then
        .ok (.exit (.error (.atOffset C.Offset "EOF found before AdvanceLine value"), s.acc))
      else do
        let (LineDelta, Offset) ← readNumber d decodeSLEB128 C.Offset
        let Line ← int64 (s.Row.Line.toNat + LineDelta.toInt)
        .ok (.next { s with Offset, Row := { s.Row with Line := BitVec.ofInt 32 Line } })
    | _ =>
      -- A byte that contains both address and line increment.
      let AdjustedOp : Int := (Op - FirstSpecial).toNat
      if LineRange = 0 then .error .divisionByZero
      else do
        let LineDelta ← int64 (MinDelta + AdjustedOp.tmod LineRange)
        let AddrDelta := AdjustedOp.tdiv LineRange
        let Line ← int64 (s.Row.Line.toNat + LineDelta)
        .ok (emitRow Callback
          { s with
            Offset := C.Offset
            Row :=
              { s.Row with
                Line := BitVec.ofInt 32 Line
                Addr := s.Row.Addr + BitVec.ofInt 64 AddrDelta } })

/-- A fault leaves the loop. -/
def checkedTurn (MinDelta LineRange : Int) (Callback : LineEntry → σ → σ × Bool)
    (s : ParseState σ) : Option (Turn (ParseState σ) (Except Fault (ParseResult σ))) :=
  match checkedOp d MinDelta LineRange Callback s with
  | .ok (.next s) => some (.next s)
  | .ok (.exit r) => some (.exit (.ok r))
  | .error f => some (.exit (.error f))

/-- What is read before the opcodes: the range of line deltas and the first row, or the end. -/
def checkedHeader (BaseAddr : BitVec 64) (acc : σ) :
    Except Fault (Turn ((Int × Int) × ParseState σ) (ParseResult σ)) :=
  if d.Data.length ≤ 0 then .ok (.exit (.error (.atOffset 0 "missing LineTable MinDelta"), acc))
  else do
    let (MinDelta, Offset) ← readNumber d decodeSLEB128 0
    if d.Data.length ≤ Offset then
      .ok (.exit (.error (.atOffset Offset "missing LineTable MaxDelta"), acc))
    else
      let (MaxDelta, Offset) ← readNumber d decodeSLEB128 Offset
      let LineRange ← int64 (MaxDelta.toInt - MinDelta.toInt)
      let LineRange ← int64 (LineRange + 1)
      if d.Data.length ≤ Offset then
        .ok (.exit (.error (.atOffset Offset "missing LineTable FirstLine"), acc))
      else
        let (FirstLine, Offset) ← readNumber d decodeULEB128 Offset
        let Row : LineEntry := ⟨BaseAddr, 1, FirstLine.setWidth 32⟩
        .ok (.next ((MinDelta.toInt, LineRange), ⟨Offset, Row, acc⟩))

def checkedParse (BaseAddr : BitVec 64) (Callback : LineEntry → σ → σ × Bool) (acc : σ) :
    Option (Except Fault (ParseResult σ)) :=
  match checkedHeader d BaseAddr acc with
  | .error f => some (.error f)
  | .ok (.exit r) => some (.ok r)
  | .ok (.next ((MinDelta, LineRange), s)) =>
    loop (checkedTurn d MinDelta LineRange Callback) (d.Data.length + 1) s

end Parse

/-! ## The grammar -/

/-- A number ends within the bytes: its value, and how many of them it takes. -/
def Reads (decode : Bool → List UInt8 → Option Decoded) (bytes : List UInt8) (v : BitVec 64)
    (n : Nat) : Prop :=
  ¬ CutOff bytes ∧ ∃ r, decode true bytes = some r ∧
    (v, n) = if r.error.isSome then (0, 0) else (r.value, r.n)

def specialRow (MinDelta LineRange : Int) (Op : UInt8) (Row : LineEntry) : LineEntry :=
  { Row with
    Line := BitVec.ofInt 32 (Row.Line.toNat + (MinDelta + (Op.toNat - 4 : Int).tmod LineRange))
    Addr := Row.Addr + BitVec.ofInt 64 ((Op.toNat - 4 : Int).tdiv LineRange) }

/--
Opcodes that can be run from a row, up to a row where the parser stops, the end
of a sequence or the end of the data.
-/
inductive Opcodes (MinDelta LineRange : Int) (Stops : LineEntry → Prop) :
    List UInt8 → LineEntry → Prop
  | atEnd (Row : LineEntry) : Opcodes MinDelta LineRange Stops [] Row
  | endSequence (bytes : List UInt8) (Row : LineEntry) :
      Opcodes MinDelta LineRange Stops (0 :: bytes) Row
  | missing {Op : UInt8} (hop : Op = 1 ∨ Op = 2 ∨ Op = 3) (Row : LineEntry) :
      Opcodes MinDelta LineRange Stops [Op] Row
  | setFile {bytes : List UInt8} {v : BitVec 64} {n : Nat} {Row : LineEntry} (hne : bytes ≠ [])
      (hread : Reads decodeULEB128 bytes v n)
      (hrest : Opcodes MinDelta LineRange Stops (bytes.drop n) { Row with File := v.setWidth 32 }) :
      Opcodes MinDelta LineRange Stops (1 :: bytes) Row
  | advancePC {bytes : List UInt8} {v : BitVec 64} {n : Nat} {Row : LineEntry} (hne : bytes ≠ [])
      (hread : Reads decodeULEB128 bytes v n)
      (hrest : ¬ Stops { Row with Addr := Row.Addr + v } →
        Opcodes MinDelta LineRange Stops (bytes.drop n) { Row with Addr := Row.Addr + v }) :
      Opcodes MinDelta LineRange Stops (2 :: bytes) Row
  | advanceLine {bytes : List UInt8} {v : BitVec 64} {n : Nat} {Row : LineEntry} (hne : bytes ≠ [])
      (hread : Reads decodeSLEB128 bytes v n) (hline : Row.Line.toNat + v.toInt < 2 ^ 63)
      (hrest : Opcodes MinDelta LineRange Stops (bytes.drop n)
        { Row with Line := BitVec.ofInt 32 (Row.Line.toNat + v.toInt) }) :
      Opcodes MinDelta LineRange Stops (3 :: bytes) Row
  | special {bytes : List UInt8} {Op : UInt8} {Row : LineEntry} (hop : 4 ≤ Op.toNat)
      (hrange : LineRange ≠ 0)
      (hline : Row.Line.toNat + (MinDelta + (Op.toNat - 4 : Int).tmod LineRange) < 2 ^ 63)
      (hrest : ¬ Stops (specialRow MinDelta LineRange Op Row) →
        Opcodes MinDelta LineRange Stops bytes (specialRow MinDelta LineRange Op Row)) :
      Opcodes MinDelta LineRange Stops (Op :: bytes) Row

section Opcodes

variable {MinDelta LineRange : Int} {Stops : LineEntry → Prop} {bytes : List UInt8}
  {Row : LineEntry}

theorem opcodes_setFile (hne : bytes ≠ []) : Opcodes MinDelta LineRange Stops (1 :: bytes) Row ↔
    ∃ v n, Reads decodeULEB128 bytes v n ∧
      Opcodes MinDelta LineRange Stops (bytes.drop n) { Row with File := v.setWidth 32 } := by
  constructor
  · intro h
    generalize hall : (1 : UInt8) :: bytes = all at h
    cases h with
    | setFile _ hread hrest =>
      cases hall
      exact ⟨_, _, hread, hrest⟩
    | missing hop => exact absurd (List.cons.inj hall).2 hne
    | special hop =>
      rw [← (List.cons.inj hall).1] at hop
      exact absurd hop (by decide)
    | _ => simp at hall
  · rintro ⟨v, n, hread, hrest⟩
    exact .setFile hne hread hrest

theorem opcodes_advancePC (hne : bytes ≠ []) : Opcodes MinDelta LineRange Stops (2 :: bytes) Row ↔
    ∃ v n, Reads decodeULEB128 bytes v n ∧ (¬ Stops { Row with Addr := Row.Addr + v } →
      Opcodes MinDelta LineRange Stops (bytes.drop n) { Row with Addr := Row.Addr + v }) := by
  constructor
  · intro h
    generalize hall : (2 : UInt8) :: bytes = all at h
    cases h with
    | advancePC _ hread hrest =>
      cases hall
      exact ⟨_, _, hread, hrest⟩
    | missing hop => exact absurd (List.cons.inj hall).2 hne
    | special hop =>
      rw [← (List.cons.inj hall).1] at hop
      exact absurd hop (by decide)
    | _ => simp at hall
  · rintro ⟨v, n, hread, hrest⟩
    exact .advancePC hne hread hrest

theorem opcodes_advanceLine (hne : bytes ≠ []) :
    Opcodes MinDelta LineRange Stops (3 :: bytes) Row ↔
      ∃ v n, Reads decodeSLEB128 bytes v n ∧ Row.Line.toNat + v.toInt < 2 ^ 63 ∧
        Opcodes MinDelta LineRange Stops (bytes.drop n)
          { Row with Line := BitVec.ofInt 32 (Row.Line.toNat + v.toInt) } := by
  constructor
  · intro h
    generalize hall : (3 : UInt8) :: bytes = all at h
    cases h with
    | advanceLine _ hread hline hrest =>
      cases hall
      exact ⟨_, _, hread, hline, hrest⟩
    | missing hop => exact absurd (List.cons.inj hall).2 hne
    | special hop =>
      rw [← (List.cons.inj hall).1] at hop
      exact absurd hop (by decide)
    | _ => simp at hall
  · rintro ⟨v, n, hread, hline, hrest⟩
    exact .advanceLine hne hread hline hrest

theorem opcodes_special {Op : UInt8} (hop : 4 ≤ Op.toNat) :
    Opcodes MinDelta LineRange Stops (Op :: bytes) Row ↔ LineRange ≠ 0 ∧
      Row.Line.toNat + (MinDelta + (Op.toNat - 4 : Int).tmod LineRange) < 2 ^ 63 ∧
      (¬ Stops (specialRow MinDelta LineRange Op Row) →
        Opcodes MinDelta LineRange Stops bytes (specialRow MinDelta LineRange Op Row)) := by
  constructor
  · intro h
    generalize hall : Op :: bytes = all at h
    cases h with
    | special _ hrange hline hrest =>
      cases hall
      exact ⟨hrange, hline, hrest⟩
    | atEnd => cases hall
    | missing h =>
      rw [(List.cons.inj hall).1] at hop
      rcases h with rfl | rfl | rfl <;> exact absurd hop (by decide)
    | _ =>
      rw [(List.cons.inj hall).1] at hop
      exact absurd hop (by decide)
  · rintro ⟨hrange, hline, hrest⟩
    exact .special hop hrange hline hrest

end Opcodes

/-- A table whose range of line deltas has a length, and whose numbers and opcodes are in order. -/
inductive Table (BaseAddr : BitVec 64) (Stops : LineEntry → Prop) : List UInt8 → Prop
  | noMinDelta : Table BaseAddr Stops []
  | noMaxDelta {bytes : List UInt8} {Min : BitVec 64} {n : Nat} (hne : bytes ≠ [])
      (hmin : Reads decodeSLEB128 bytes Min n) (hend : bytes.drop n = []) :
      Table BaseAddr Stops bytes
  | noFirstLine {bytes : List UInt8} {Min Max : BitVec 64} {n m : Nat} (hne : bytes ≠ [])
      (hmin : Reads decodeSLEB128 bytes Min n) (hne' : bytes.drop n ≠ [])
      (hmax : Reads decodeSLEB128 (bytes.drop n) Max m)
      (hlow : -2 ^ 63 ≤ Max.toInt - Min.toInt) (hhigh : Max.toInt - Min.toInt + 1 < 2 ^ 63)
      (hend : bytes.drop (n + m) = []) : Table BaseAddr Stops bytes
  | opcodes {bytes : List UInt8} {Min Max First : BitVec 64} {n m k : Nat} (hne : bytes ≠ [])
      (hmin : Reads decodeSLEB128 bytes Min n) (hne' : bytes.drop n ≠ [])
      (hmax : Reads decodeSLEB128 (bytes.drop n) Max m)
      (hlow : -2 ^ 63 ≤ Max.toInt - Min.toInt) (hhigh : Max.toInt - Min.toInt + 1 < 2 ^ 63)
      (hne'' : bytes.drop (n + m) ≠ []) (hfirst : Reads decodeULEB128 (bytes.drop (n + m)) First k)
      (hopcodes : Opcodes Min.toInt (Max.toInt - Min.toInt + 1) Stops (bytes.drop (n + m + k))
        ⟨BaseAddr, 1, First.setWidth 32⟩) : Table BaseAddr Stops bytes

section Numbers

variable {d : DataExtractor} {decode : Bool → List UInt8 → Option Decoded} {Offset n : Nat}
  {v : BitVec 64} {x y : Int} {p : BitVec 64 × Nat}

theorem int64_eq_ok : int64 x = .ok y ↔ (-2 ^ 63 ≤ x ∧ x < 2 ^ 63) ∧ y = x := by
  unfold int64
  split
  · next h => rw [Except.ok.injEq, eq_comm, and_iff_right h]
  · next h => exact ⟨nofun, fun h' => absurd h'.1 h⟩

theorem readNumber_eq_ok : readNumber d decode Offset = .ok p ↔
    ∃ v n, Reads decode (d.Data.drop Offset) v n ∧ p = (v, Offset + n) := by
  unfold readNumber Reads
  by_cases hcut : CutOff (d.Data.drop Offset)
  · rw [if_pos hcut]
    exact ⟨nofun, fun ⟨_, _, h, _⟩ => absurd hcut h.1⟩
  rw [if_neg hcut]
  cases hdecode : decode true (d.Data.drop Offset) with
  | none =>
    constructor
    · nofun
    · rintro ⟨v, n, ⟨-, r, hr, -⟩, -⟩
      cases hr
  | some r =>
    rw [Except.ok.injEq]
    constructor
    · rintro rfl
      refine ⟨_, _, ⟨hcut, r, rfl, rfl⟩, ?_⟩
      cases r.error.isSome <;> rfl
    · rintro ⟨v, n, ⟨-, r', hr', heq⟩, rfl⟩
      obtain rfl := Option.some.inj hr'
      cases herror : r.error.isSome with
      | true =>
        rw [herror] at heq
        obtain ⟨rfl, rfl⟩ := Prod.mk.inj heq
        rfl
      | false =>
        rw [herror] at heq
        obtain ⟨rfl, rfl⟩ := Prod.mk.inj heq
        rfl

theorem readNumber_bind {α : Type} {f : BitVec 64 × Nat → Except Fault α} {a : α} :
    (readNumber d decode Offset).bind f = .ok a ↔
      ∃ v n, Reads decode (d.Data.drop Offset) v n ∧ f (v, Offset + n) = .ok a := by
  constructor
  · intro h
    cases hread : readNumber d decode Offset with
    | error e =>
      rw [hread] at h
      cases h
    | ok p =>
      obtain ⟨v, n, hv, rfl⟩ := readNumber_eq_ok.mp hread
      rw [hread] at h
      exact ⟨v, n, hv, h⟩
  · rintro ⟨v, n, hv, h⟩
    rw [readNumber_eq_ok.mpr ⟨v, n, hv, rfl⟩]
    exact h

theorem int64_bind {α : Type} {f : Int → Except Fault α} {a : α} :
    (int64 x).bind f = .ok a ↔ (-2 ^ 63 ≤ x ∧ x < 2 ^ 63) ∧ f x = .ok a := by
  constructor
  · intro h
    cases hx : int64 x with
    | error e =>
      rw [hx] at h
      cases h
    | ok y =>
      obtain ⟨hfits, rfl⟩ := int64_eq_ok.mp hx
      rw [hx] at h
      exact ⟨hfits, h⟩
  · rintro ⟨hfits, h⟩
    rw [int64_eq_ok.mpr ⟨hfits, rfl⟩]
    exact h

theorem Reads.cursor (h : Reads decode (d.Data.drop Offset) v n) :
    ∃ C, ((decode true (d.Data.drop Offset)).bind fun r =>
      some (if r.error.isSome then (0, (Cursor.start Offset).fail)
        else (r.value, (Cursor.start Offset).skip r.n))) = some (v, C) ∧ C.Offset = Offset + n := by
  obtain ⟨-, r, hr, heq⟩ := h
  rw [hr, Option.bind_some]
  cases herror : r.error.isSome with
  | true =>
    rw [herror] at heq
    obtain ⟨rfl, rfl⟩ := Prod.mk.inj heq
    exact ⟨_, rfl, rfl⟩
  | false =>
    rw [herror] at heq
    obtain ⟨rfl, rfl⟩ := Prod.mk.inj heq
    exact ⟨_, rfl, rfl⟩

theorem Reads.getULEB128 (h : Reads decodeULEB128 (d.Data.drop Offset) v n) :
    ∃ C, d.getULEB128 (.start Offset) = some (v, C) ∧ C.Offset = Offset + n := h.cursor

theorem Reads.getSLEB128 (h : Reads decodeSLEB128 (d.Data.drop Offset) v n) :
    ∃ C, d.getSLEB128 (.start Offset) = some (v, C) ∧ C.Offset = Offset + n := h.cursor

end Numbers

/-! ## Agreement with the parser -/

section Agreement

theorem ofInt_toInt_setWidth (v : BitVec 64) : BitVec.ofInt 32 v.toInt = v.setWidth 32 := by
  apply BitVec.eq_of_toNat_eq
  rw [BitVec.toNat_ofInt, BitVec.toNat_setWidth, BitVec.toInt_eq_toNat_cond]
  split <;> omega

theorem ofInt_add_toInt (Line : BitVec 32) (v : BitVec 64) :
    BitVec.ofInt 32 (Line.toNat + v.toInt) = Line + v.setWidth 32 := by
  rw [BitVec.ofInt_add, ofInt_toInt_setWidth, BitVec.ofInt_natCast, BitVec.ofNat_toNat,
    BitVec.setWidth_eq]

theorem ofInt_tmod (x y : BitVec 64) :
    BitVec.ofInt 32 (x.toInt.tmod y.toInt) = (x.srem y).setWidth 32 := by
  rw [← BitVec.toInt_srem, ofInt_toInt_setWidth]

theorem ofInt_tdiv {x : BitVec 64} (hx : 0 ≤ x.toInt) (y : BitVec 64) :
    BitVec.ofInt 64 (x.toInt.tdiv y.toInt) = x.sdiv y := by
  have hmin : x ≠ BitVec.intMin 64 := by
    rintro rfl
    revert hx
    decide
  rw [← BitVec.toInt_sdiv_of_ne_or_ne x y (Or.inl hmin), BitVec.ofInt_toInt]

theorem toInt_adjusted (Op : UInt8) : (Op.toBitVec.setWidth 64).toInt = Op.toNat := by
  have hlt := Op.toNat_lt
  have htoNat : (Op.toBitVec.setWidth 64).toNat = Op.toNat := by
    rw [BitVec.toNat_setWidth, UInt8.toNat_toBitVec, Nat.mod_eq_of_lt (by omega)]
  rw [BitVec.toInt_eq_toNat_cond, htoNat, if_pos (by omega)]

variable {σ : Type} {d : DataExtractor} {Callback : LineEntry → σ → σ × Bool} {s : ParseState σ}
  {MinDelta LineRange : BitVec 64} {t : Turn (ParseState σ) (ParseResult σ)}

theorem parseTurn_of_checkedOp
    (h : checkedOp d MinDelta.toInt LineRange.toInt Callback s = .ok t) :
    parseTurn d MinDelta LineRange Callback s = some t := by
  unfold checkedOp at h
  unfold parseTurn
  by_cases hend : d.Data.length ≤ s.Offset
  · rw [if_pos hend] at h ⊢
    rw [Except.ok.inj h]
  rw [if_neg hend] at h ⊢
  obtain ⟨Op, C, hread⟩ : ∃ Op C, d.getU8 (.start s.Offset) = (Op, C) := ⟨_, _, rfl⟩
  rw [hread] at h ⊢
  rcases hop : Op.toNat with _ | _ | _ | _ | k <;> simp only [hop] at h ⊢
  · rw [Except.ok.inj h]
  · by_cases hvalue : d.Data.length ≤ C.Offset
    · rw [if_pos hvalue] at h ⊢
      rw [Except.ok.inj h]
    · rw [if_neg hvalue] at h ⊢
      obtain ⟨v, n, hv, h⟩ := readNumber_bind.mp h
      obtain ⟨C', hget, hoffset⟩ := hv.getULEB128
      rw [hget, ← Except.ok.inj h, ← hoffset]
      rfl
  · by_cases hvalue : d.Data.length ≤ C.Offset
    · rw [if_pos hvalue] at h ⊢
      rw [Except.ok.inj h]
    · rw [if_neg hvalue] at h ⊢
      obtain ⟨v, n, hv, h⟩ := readNumber_bind.mp h
      obtain ⟨C', hget, hoffset⟩ := hv.getULEB128
      rw [hget, ← Except.ok.inj h, ← hoffset]
      rfl
  · by_cases hvalue : d.Data.length ≤ C.Offset
    · rw [if_pos hvalue] at h ⊢
      rw [Except.ok.inj h]
    · rw [if_neg hvalue] at h ⊢
      obtain ⟨v, n, hv, h⟩ := readNumber_bind.mp h
      obtain ⟨C', hget, hoffset⟩ := hv.getSLEB128
      have h := (int64_bind.mp h).2
      rw [hget, ← Except.ok.inj h, ← hoffset, ofInt_add_toInt]
      rfl
  · by_cases hrange : LineRange.toInt = 0
    · rw [if_pos hrange] at h
      cases h
    · have hne : LineRange ≠ 0 := by
        rintro rfl
        exact hrange rfl
      rw [if_neg hrange] at h
      rw [if_neg hne]
      obtain ⟨hdelta, h⟩ := int64_bind.mp h
      have h := (int64_bind.mp h).2
      rw [← Except.ok.inj h, ← toInt_adjusted, BitVec.ofInt_add, BitVec.ofInt_add, ofInt_tmod,
        ofInt_toInt_setWidth, ofInt_tdiv (by rw [toInt_adjusted]; exact Int.natCast_nonneg _),
        BitVec.ofInt_natCast, BitVec.ofNat_toNat, BitVec.setWidth_eq,
        BitVec.setWidth_add _ _ (by decide)]

theorem loop_of_checked {turns : Nat} {r : ParseResult σ}
    (h : loop (checkedTurn d MinDelta.toInt LineRange.toInt Callback) turns s = some (.ok r)) :
    loop (parseTurn d MinDelta LineRange Callback) turns s = some r := by
  induction turns generalizing s with
  | zero => cases h
  | succ turns ih =>
    rw [loop, checkedTurn] at h
    cases hop : checkedOp d MinDelta.toInt LineRange.toInt Callback s with
    | error f =>
      rw [hop] at h
      cases h
    | ok t =>
      rw [hop] at h
      have hturn := parseTurn_of_checkedOp hop
      cases t with
      | next s' =>
        rw [loop_next hturn]
        exact ih h
      | exit r' =>
        rw [loop_exit hturn]
        cases h
        rfl

theorem toInt_lineRange {Min Max : BitVec 64} (hlow : -2 ^ 63 ≤ Max.toInt - Min.toInt)
    (hhigh : Max.toInt - Min.toInt + 1 < 2 ^ 63) :
    (Max - Min + 1).toInt = Max.toInt - Min.toInt + 1 := by
  have hsub : (Max - Min).toInt = Max.toInt - Min.toInt := by
    rw [BitVec.toInt_sub]
    exact Int.bmod_eq_of_le (by omega) (by omega)
  have hone : (1 : BitVec 64).toInt = 1 := by decide
  rw [BitVec.toInt_add, hsub, hone]
  exact Int.bmod_eq_of_le (by omega) (by omega)

theorem checkedHeader_ok (Callback : LineEntry → σ → σ × Bool) {BaseAddr : BitVec 64} {acc : σ}
    {t : Turn ((Int × Int) × ParseState σ) (ParseResult σ)}
    (h : checkedHeader d BaseAddr acc = .ok t) :
    (∃ r, t = .exit r ∧ parse d BaseAddr Callback acc = some r ∧
      ∀ Stops, Table BaseAddr Stops d.Data) ∨
    ∃ (MinDelta LineRange : BitVec 64) (s : ParseState σ),
      t = .next ((MinDelta.toInt, LineRange.toInt), s) ∧
      parse d BaseAddr Callback acc =
        loop (parseTurn d MinDelta LineRange Callback) (d.Data.length + 1) s ∧
      ∀ Stops, Opcodes MinDelta.toInt LineRange.toInt Stops (d.Data.drop s.Offset) s.Row →
        Table BaseAddr Stops d.Data := by
  unfold checkedHeader at h
  unfold parse
  by_cases hend : d.Data.length ≤ 0
  · rw [if_pos hend] at h ⊢
    have hnil : d.Data = [] := List.length_eq_zero_iff.mp (Nat.le_zero.mp hend)
    refine Or.inl ⟨_, (Except.ok.inj h).symm, rfl, ?_⟩
    intro Stops
    rw [hnil]
    exact .noMinDelta
  rw [if_neg hend] at h ⊢
  have hne : d.Data ≠ [] := fun hnil => hend (by rw [hnil]; exact Nat.le_refl 0)
  obtain ⟨Min, n, hmin, h⟩ := readNumber_bind.mp h
  obtain ⟨C, hget, hoffset⟩ := hmin.getSLEB128
  rw [Nat.zero_add] at h hoffset
  dsimp only at h
  rw [hget, Option.bind_eq_bind, Option.bind_some]
  dsimp only
  rw [hoffset]
  by_cases hend : d.Data.length ≤ n
  · rw [if_pos hend] at h ⊢
    refine Or.inl ⟨_, (Except.ok.inj h).symm, rfl, ?_⟩
    intro Stops
    exact .noMaxDelta hne hmin (List.drop_eq_nil_iff.mpr hend)
  rw [if_neg hend] at h ⊢
  have hne' : d.Data.drop n ≠ [] := fun hnil => hend (List.drop_eq_nil_iff.mp hnil)
  obtain ⟨Max, m, hmax, h⟩ := readNumber_bind.mp h
  obtain ⟨C', hget, hoffset⟩ := hmax.getSLEB128
  obtain ⟨hlow, h⟩ := int64_bind.mp h
  obtain ⟨hhigh, h⟩ := int64_bind.mp h
  rw [hget, Option.bind_some]
  rw [hoffset]
  by_cases hend : d.Data.length ≤ n + m
  · rw [if_pos hend] at h ⊢
    refine Or.inl ⟨_, (Except.ok.inj h).symm, rfl, ?_⟩
    intro Stops
    exact .noFirstLine hne hmin hne' hmax hlow.1 hhigh.2 (List.drop_eq_nil_iff.mpr hend)
  rw [if_neg hend] at h ⊢
  have hne'' : d.Data.drop (n + m) ≠ [] := fun hnil => hend (List.drop_eq_nil_iff.mp hnil)
  obtain ⟨First, k, hfirst, h⟩ := readNumber_bind.mp h
  obtain ⟨C'', hget, hoffset⟩ := hfirst.getULEB128
  have hrange := toInt_lineRange hlow.1 hhigh.2
  rw [hget, Option.bind_some, hoffset]
  refine Or.inr ⟨Min, Max - Min + 1, ⟨n + m + k, ⟨BaseAddr, 1, First.setWidth 32⟩, acc⟩, ?_, rfl,
    ?_⟩
  · rw [hrange]
    exact (Except.ok.inj h).symm
  · intro Stops hopcodes
    rw [hrange] at hopcodes
    exact .opcodes hne hmin hne' hmax hlow.1 hhigh.2 hne'' hfirst hopcodes

theorem parse_of_checkedParse {BaseAddr : BitVec 64} {acc : σ} {r : ParseResult σ}
    (h : checkedParse d BaseAddr Callback acc = some (.ok r)) :
    parse d BaseAddr Callback acc = some r := by
  unfold checkedParse at h
  cases hheader : checkedHeader d BaseAddr acc with
  | error f =>
    rw [hheader] at h
    cases h
  | ok t =>
    rw [hheader] at h
    obtain ⟨r', rfl, hparse, -⟩ | ⟨MinDelta, LineRange, s, rfl, hparse, -⟩ :=
      checkedHeader_ok Callback hheader
    · cases h
      exact hparse
    · rw [hparse]
      exact loop_of_checked h

end Agreement

section Runs

variable {σ : Type} {d : DataExtractor} {Callback : LineEntry → σ → σ × Bool} {s : ParseState σ}
  {MinDelta LineRange : Int} {bytes : List UInt8}

theorem getU8_cons {Op : UInt8} (h : d.Data.drop s.Offset = Op :: bytes) :
    d.getU8 (.start s.Offset) = (Op, .start (s.Offset + 1)) ∧
      d.Data.drop (s.Offset + 1) = bytes ∧ ¬ d.Data.length ≤ s.Offset := by
  have hat : d.At s.Offset (Op :: bytes) := ⟨[], by rw [h, List.append_nil]⟩
  refine ⟨DataExtractor.getU8_at hat, ?_, Nat.not_le_of_lt hat.lt⟩
  rw [← List.drop_drop, h, List.drop_one, List.tail_cons]

theorem checkedOp_end (h : d.Data.drop s.Offset = []) :
    ∃ r, checkedOp d MinDelta LineRange Callback s = .ok (.exit r) :=
  ⟨_, by rw [checkedOp, if_pos (List.drop_eq_nil_iff.mp h)]⟩

theorem checkedOp_endSequence (h : d.Data.drop s.Offset = 0 :: bytes) :
    ∃ r, checkedOp d MinDelta LineRange Callback s = .ok (.exit r) := by
  obtain ⟨hget, -, hin⟩ := getU8_cons h
  exact ⟨_, by rw [checkedOp, if_neg hin, hget]; rfl⟩

theorem checkedOp_missing {Op : UInt8} (hop : Op = 1 ∨ Op = 2 ∨ Op = 3)
    (h : d.Data.drop s.Offset = [Op]) :
    ∃ r, checkedOp d MinDelta LineRange Callback s = .ok (.exit r) := by
  obtain ⟨hget, hdrop, hin⟩ := getU8_cons h
  have hend := List.drop_eq_nil_iff.mp hdrop
  rcases hop with rfl | rfl | rfl
  all_goals exact ⟨_, by rw [checkedOp, if_neg hin, hget]; exact if_pos hend⟩

variable {t : Turn (ParseState σ) (ParseResult σ)}

theorem checkedOp_setFile (h : d.Data.drop s.Offset = 1 :: bytes) (hne : bytes ≠ []) :
    checkedOp d MinDelta LineRange Callback s = .ok t ↔ ∃ v n, Reads decodeULEB128 bytes v n ∧
      t = .next ⟨s.Offset + 1 + n, { s.Row with File := v.setWidth 32 }, s.acc⟩ := by
  obtain ⟨hget, hdrop, hin⟩ := getU8_cons h
  have hvalue : ¬ d.Data.length ≤ s.Offset + 1 :=
    fun hend => hne (hdrop.symm.trans (List.drop_eq_nil_iff.mpr hend))
  rw [checkedOp, if_neg hin, hget, ← hdrop]
  refine (Eq.congr_left (if_neg hvalue)).trans (readNumber_bind.trans ?_)
  simp only [Except.ok.injEq, eq_comm]
  rfl

theorem checkedOp_advancePC (h : d.Data.drop s.Offset = 2 :: bytes) (hne : bytes ≠ []) :
    checkedOp d MinDelta LineRange Callback s = .ok t ↔ ∃ v n, Reads decodeULEB128 bytes v n ∧
      t = emitRow Callback
        ⟨s.Offset + 1 + n, { s.Row with Addr := s.Row.Addr + v }, s.acc⟩ := by
  obtain ⟨hget, hdrop, hin⟩ := getU8_cons h
  have hvalue : ¬ d.Data.length ≤ s.Offset + 1 :=
    fun hend => hne (hdrop.symm.trans (List.drop_eq_nil_iff.mpr hend))
  rw [checkedOp, if_neg hin, hget, ← hdrop]
  refine (Eq.congr_left (if_neg hvalue)).trans (readNumber_bind.trans ?_)
  simp only [Except.ok.injEq, eq_comm]
  rfl

theorem checkedOp_advanceLine (h : d.Data.drop s.Offset = 3 :: bytes) (hne : bytes ≠ []) :
    checkedOp d MinDelta LineRange Callback s = .ok t ↔ ∃ v n, Reads decodeSLEB128 bytes v n ∧
      s.Row.Line.toNat + v.toInt < 2 ^ 63 ∧
      t = .next ⟨s.Offset + 1 + n,
        { s.Row with Line := BitVec.ofInt 32 (s.Row.Line.toNat + v.toInt) }, s.acc⟩ := by
  obtain ⟨hget, hdrop, hin⟩ := getU8_cons h
  have hvalue : ¬ d.Data.length ≤ s.Offset + 1 :=
    fun hend => hne (hdrop.symm.trans (List.drop_eq_nil_iff.mpr hend))
  rw [checkedOp, if_neg hin, hget, ← hdrop]
  refine (Eq.congr_left (if_neg hvalue)).trans (readNumber_bind.trans ?_)
  refine exists_congr fun v => exists_congr fun n => and_congr_right fun _ => ?_
  have hlow : (-2 ^ 63 : Int) ≤ s.Row.Line.toNat + v.toInt := by
    have := BitVec.le_toInt v
    omega
  refine int64_bind.trans (and_congr (and_iff_right hlow) ?_)
  rw [Except.ok.injEq]
  exact eq_comm

theorem checkedOp_special {Op : UInt8} (hop : 4 ≤ Op.toNat) (hMin : -2 ^ 63 ≤ MinDelta)
    (h : d.Data.drop s.Offset = Op :: bytes) :
    checkedOp d MinDelta LineRange Callback s = .ok t ↔ LineRange ≠ 0 ∧
      s.Row.Line.toNat + (MinDelta + (Op.toNat - 4 : Int).tmod LineRange) < 2 ^ 63 ∧
      t = emitRow Callback ⟨s.Offset + 1, specialRow MinDelta LineRange Op s.Row, s.acc⟩ := by
  obtain ⟨hget, -, hin⟩ := getU8_cons h
  have hadjusted : ((Op - FirstSpecial).toNat : Int) = Op.toNat - 4 := by
    rw [UInt8.toNat_sub_of_le Op FirstSpecial (UInt8.le_iff_toNat_le.mpr hop)]
    exact Int.ofNat_sub hop
  have hmod : 0 ≤ (Op.toNat - 4 : Int).tmod LineRange := Int.tmod_nonneg _ (by omega)
  obtain ⟨k, hk⟩ := Nat.exists_eq_add_of_le' hop
  rw [checkedOp, if_neg hin, hget]
  simp only [hk]
  rw [hadjusted, hk]
  by_cases hrange : LineRange = 0
  · rw [if_pos hrange]
    exact ⟨nofun, fun h => absurd hrange h.1⟩
  rw [if_neg hrange, and_iff_right hrange, ← hk]
  constructor
  · intro h
    have h := (int64_bind.mp h).2
    obtain ⟨hline, h⟩ := int64_bind.mp h
    exact ⟨hline.2, (Except.ok.inj h).symm⟩
  · rintro ⟨hline, rfl⟩
    refine int64_bind.mpr ⟨⟨by omega, by omega⟩, ?_⟩
    exact int64_bind.mpr ⟨⟨by omega, hline⟩, rfl⟩

/-! ## The data that are read without a fault -/

/-- The loop ends without a fault. -/
def Runs (d : DataExtractor) (MinDelta LineRange : Int) (Callback : LineEntry → σ → σ × Bool)
    (turns : Nat) (s : ParseState σ) : Prop :=
  ∃ r, loop (checkedTurn d MinDelta LineRange Callback) turns s = some (.ok r)

theorem runs_succ {turns : Nat} : Runs d MinDelta LineRange Callback (turns + 1) s ↔
    ∃ t, checkedOp d MinDelta LineRange Callback s = .ok t ∧
      t.Sat (Runs d MinDelta LineRange Callback turns) fun _ => True := by
  unfold Runs
  rw [loop, checkedTurn]
  cases checkedOp d MinDelta LineRange Callback s with
  | error f =>
    constructor
    · rintro ⟨r, h⟩
      cases h
    · rintro ⟨t, h, -⟩
      cases h
  | ok t =>
    cases t with
    | next s' =>
      constructor
      · intro h
        exact ⟨_, rfl, h⟩
      · rintro ⟨t, ht, h⟩
        cases ht
        exact h
    | exit r =>
      constructor
      · intro
        exact ⟨_, rfl, trivial⟩
      · intro
        exact ⟨r, rfl⟩

theorem runs_emit {Stops : LineEntry → Prop} {turns : Nat}
    (hstops : ∀ Row acc, (Callback Row acc).2 = false ↔ Stops Row) :
    (emitRow Callback s).Sat (Runs d MinDelta LineRange Callback turns) (fun _ => True) ↔
      (¬ Stops s.Row →
        Runs d MinDelta LineRange Callback turns { s with acc := (Callback s.Row s.acc).1 }) := by
  rw [← hstops s.Row s.acc, emitRow]
  cases hgo : (Callback s.Row s.acc).2 with
  | true => simp [Turn.Sat, hgo]
  | false => simp [Turn.Sat, hgo]

variable {Stops : LineEntry → Prop}

/-- A turn ends without a fault, and so does the loop after it. -/
def Step (d : DataExtractor) (MinDelta LineRange : Int) (Callback : LineEntry → σ → σ × Bool)
    (turns : Nat) (s : ParseState σ) : Prop :=
  ∃ t, checkedOp d MinDelta LineRange Callback s = .ok t ∧
    t.Sat (Runs d MinDelta LineRange Callback turns) fun _ => True

theorem Step.exit {turns : Nat}
    (h : ∃ r, checkedOp d MinDelta LineRange Callback s = .ok (.exit r)) :
    Step d MinDelta LineRange Callback turns s := by
  obtain ⟨r, hr⟩ := h
  exact ⟨_, hr, trivial⟩

section Step

variable {turns : Nat} (hlater : ∀ (s' : ParseState σ) n, s'.Offset = s.Offset + 1 + n →
  (Runs d MinDelta LineRange Callback turns s' ↔
    Opcodes MinDelta LineRange Stops (bytes.drop n) s'.Row))

include hlater

theorem step_setFile (hbytes : d.Data.drop s.Offset = 1 :: bytes) :
    Step d MinDelta LineRange Callback turns s ↔
      Opcodes MinDelta LineRange Stops (1 :: bytes) s.Row := by
  by_cases hne : bytes = []
  · subst hne
    exact ⟨fun _ => .missing (by decide) s.Row,
      fun _ => .exit (checkedOp_missing (by decide) hbytes)⟩
  rw [opcodes_setFile hne, Step]
  simp only [checkedOp_setFile hbytes hne]
  constructor
  · rintro ⟨t, ⟨v, n, hread, rfl⟩, h⟩
    exact ⟨v, n, hread, (hlater _ n rfl).mp h⟩
  · rintro ⟨v, n, hread, h⟩
    exact ⟨_, ⟨v, n, hread, rfl⟩, (hlater _ n rfl).mpr h⟩

theorem step_advancePC (hstops : ∀ Row acc, (Callback Row acc).2 = false ↔ Stops Row)
    (hbytes : d.Data.drop s.Offset = 2 :: bytes) :
    Step d MinDelta LineRange Callback turns s ↔
      Opcodes MinDelta LineRange Stops (2 :: bytes) s.Row := by
  by_cases hne : bytes = []
  · subst hne
    exact ⟨fun _ => .missing (by decide) s.Row,
      fun _ => .exit (checkedOp_missing (by decide) hbytes)⟩
  rw [opcodes_advancePC hne, Step]
  simp only [checkedOp_advancePC hbytes hne]
  constructor
  · rintro ⟨t, ⟨v, n, hread, rfl⟩, h⟩
    rw [runs_emit hstops] at h
    exact ⟨v, n, hread, fun hgo => (hlater _ n rfl).mp (h hgo)⟩
  · rintro ⟨v, n, hread, h⟩
    refine ⟨_, ⟨v, n, hread, rfl⟩, ?_⟩
    rw [runs_emit hstops]
    exact fun hgo => (hlater _ n rfl).mpr (h hgo)

theorem step_advanceLine (hbytes : d.Data.drop s.Offset = 3 :: bytes) :
    Step d MinDelta LineRange Callback turns s ↔
      Opcodes MinDelta LineRange Stops (3 :: bytes) s.Row := by
  by_cases hne : bytes = []
  · subst hne
    exact ⟨fun _ => .missing (by decide) s.Row,
      fun _ => .exit (checkedOp_missing (by decide) hbytes)⟩
  rw [opcodes_advanceLine hne, Step]
  simp only [checkedOp_advanceLine hbytes hne]
  constructor
  · rintro ⟨t, ⟨v, n, hread, hline, rfl⟩, h⟩
    exact ⟨v, n, hread, hline, (hlater _ n rfl).mp h⟩
  · rintro ⟨v, n, hread, hline, h⟩
    exact ⟨_, ⟨v, n, hread, hline, rfl⟩, (hlater _ n rfl).mpr h⟩

theorem step_special (hMin : -2 ^ 63 ≤ MinDelta)
    (hstops : ∀ Row acc, (Callback Row acc).2 = false ↔ Stops Row) {Op : UInt8}
    (hop : 4 ≤ Op.toNat) (hbytes : d.Data.drop s.Offset = Op :: bytes) :
    Step d MinDelta LineRange Callback turns s ↔
      Opcodes MinDelta LineRange Stops (Op :: bytes) s.Row := by
  rw [opcodes_special hop, Step]
  simp only [checkedOp_special hop hMin hbytes]
  constructor
  · rintro ⟨t, ⟨hrange, hline, rfl⟩, h⟩
    rw [runs_emit hstops] at h
    exact ⟨hrange, hline, fun hgo => (hlater _ 0 rfl).mp (h hgo)⟩
  · rintro ⟨hrange, hline, h⟩
    refine ⟨_, ⟨hrange, hline, rfl⟩, ?_⟩
    rw [runs_emit hstops]
    exact fun hgo => (hlater _ 0 rfl).mpr (h hgo)

end Step

theorem runs_iff (hMin : -2 ^ 63 ≤ MinDelta)
    (hstops : ∀ Row acc, (Callback Row acc).2 = false ↔ Stops Row) {turns : Nat}
    (hturns : (d.Data.drop s.Offset).length < turns) :
    Runs d MinDelta LineRange Callback turns s ↔
      Opcodes MinDelta LineRange Stops (d.Data.drop s.Offset) s.Row := by
  induction turns generalizing s with
  | zero => cases hturns
  | succ turns ih =>
    rw [runs_succ]
    cases hbytes : d.Data.drop s.Offset with
    | nil => exact ⟨fun _ => .atEnd s.Row, fun _ => Step.exit (checkedOp_end hbytes)⟩
    | cons Op bytes =>
      obtain ⟨-, hdrop, -⟩ := getU8_cons hbytes
      rw [hbytes, List.length_cons] at hturns
      have hlater : ∀ (s' : ParseState σ) n, s'.Offset = s.Offset + 1 + n →
          (Runs d MinDelta LineRange Callback turns s' ↔
            Opcodes MinDelta LineRange Stops (bytes.drop n) s'.Row) := by
        intro s' n hoffset
        have hd : d.Data.drop s'.Offset = bytes.drop n := by
          rw [hoffset, ← List.drop_drop, hdrop]
        rw [ih (by rw [hd, List.length_drop]; omega), hd]
      rcases hop : Op.toNat with _ | _ | _ | _ | k
      · obtain rfl : Op = 0 := UInt8.toNat_inj.mp hop
        exact ⟨fun _ => .endSequence bytes s.Row,
          fun _ => Step.exit (checkedOp_endSequence hbytes)⟩
      · obtain rfl : Op = 1 := UInt8.toNat_inj.mp hop
        exact step_setFile hlater hbytes
      · obtain rfl : Op = 2 := UInt8.toNat_inj.mp hop
        exact step_advancePC hlater hstops hbytes
      · obtain rfl : Op = 3 := UInt8.toNat_inj.mp hop
        exact step_advanceLine hlater hbytes
      · exact step_special hlater hMin hstops (by omega) hbytes

theorem emitRow_next {s s' : ParseState σ} (h : emitRow Callback s = .next s') :
    s'.Offset = s.Offset := by
  rw [emitRow] at h
  dsimp only at h
  split at h
  · cases h
    rfl
  · cases h

theorem checkedOp_next (hMin : -2 ^ 63 ≤ MinDelta) {s s' : ParseState σ}
    (h : checkedOp d MinDelta LineRange Callback s = .ok (.next s')) :
    s.Offset < d.Data.length ∧ s.Offset < s'.Offset := by
  cases hbytes : d.Data.drop s.Offset with
  | nil =>
    obtain ⟨r, hr⟩ : ∃ r, checkedOp d MinDelta LineRange Callback s = .ok (.exit r) :=
      checkedOp_end hbytes
    rw [hr] at h
    cases h
  | cons Op bytes =>
    obtain ⟨-, -, hin⟩ := getU8_cons hbytes
    refine ⟨Nat.lt_of_not_le hin, ?_⟩
    have hmissing : ¬ ((Op = 1 ∨ Op = 2 ∨ Op = 3) ∧ bytes = []) := by
      rintro ⟨hop, rfl⟩
      obtain ⟨r, hr⟩ : ∃ r, checkedOp d MinDelta LineRange Callback s = .ok (.exit r) :=
        checkedOp_missing hop hbytes
      rw [hr] at h
      cases h
    rcases hop : Op.toNat with _ | _ | _ | _ | k
    · obtain rfl : Op = 0 := UInt8.toNat_inj.mp hop
      obtain ⟨r, hr⟩ : ∃ r, checkedOp d MinDelta LineRange Callback s = .ok (.exit r) :=
        checkedOp_endSequence hbytes
      rw [hr] at h
      cases h
    · obtain rfl : Op = 1 := UInt8.toNat_inj.mp hop
      obtain ⟨v, n, -, heq⟩ :=
        (checkedOp_setFile hbytes fun hnil => hmissing ⟨by decide, hnil⟩).mp h
      cases heq
      exact Nat.lt_of_lt_of_le (Nat.lt_succ_self _) (Nat.le_add_right _ n)
    · obtain rfl : Op = 2 := UInt8.toNat_inj.mp hop
      obtain ⟨v, n, -, heq⟩ :=
        (checkedOp_advancePC hbytes fun hnil => hmissing ⟨by decide, hnil⟩).mp h
      rw [emitRow_next heq.symm]
      exact Nat.lt_of_lt_of_le (Nat.lt_succ_self _) (Nat.le_add_right _ n)
    · obtain rfl : Op = 3 := UInt8.toNat_inj.mp hop
      obtain ⟨v, n, -, -, heq⟩ :=
        (checkedOp_advanceLine hbytes fun hnil => hmissing ⟨by decide, hnil⟩).mp h
      cases heq
      exact Nat.lt_of_lt_of_le (Nat.lt_succ_self _) (Nat.le_add_right _ n)
    · obtain ⟨-, -, heq⟩ := (checkedOp_special (by omega) hMin hbytes).mp h
      rw [emitRow_next heq.symm]
      exact Nat.lt_succ_self _

theorem loop_ends (hMin : -2 ^ 63 ≤ MinDelta) (s : ParseState σ) :
    ∃ r, loop (checkedTurn d MinDelta LineRange Callback) (d.Data.length + 1) s = some r := by
  have hturn : ∀ s : ParseState σ, True →
      ∃ t, checkedTurn d MinDelta LineRange Callback s = some t ∧
        t.Sat (fun s' => True ∧ d.Data.length - s'.Offset < d.Data.length - s.Offset)
          fun _ => True := by
    intro s _
    unfold checkedTurn
    cases hop : checkedOp d MinDelta LineRange Callback s with
    | error f => exact ⟨_, rfl, trivial⟩
    | ok t =>
      cases t with
      | exit r => exact ⟨_, rfl, trivial⟩
      | next s' =>
        obtain ⟨hin, hlt⟩ := checkedOp_next hMin hop
        exact ⟨_, rfl, trivial, Nat.sub_lt_sub_left hin hlt⟩
  obtain ⟨r, hrun, -⟩ := loop_total _ (fun s => d.Data.length - s.Offset) hturn (s := s) trivial
  exact ⟨r, hrun _ (Nat.lt_succ_of_le (Nat.sub_le _ _))⟩

theorem checkedParse_total (d : DataExtractor) (Callback : LineEntry → σ → σ × Bool)
    (BaseAddr : BitVec 64) (acc : σ) :
    ∃ r, checkedParse d BaseAddr Callback acc = some r := by
  unfold checkedParse
  cases hheader : checkedHeader d BaseAddr acc with
  | error f => exact ⟨_, rfl⟩
  | ok t =>
    obtain ⟨r, rfl, -⟩ | ⟨MinDelta, LineRange, s, rfl, -⟩ :=
      checkedHeader_ok Callback hheader
    · exact ⟨_, rfl⟩
    · exact loop_ends (BitVec.le_toInt MinDelta) s

theorem Table.checkedHeader {BaseAddr : BitVec 64} (acc : σ) (h : Table BaseAddr Stops d.Data) :
    (∃ r, checkedHeader d BaseAddr acc = .ok (.exit r)) ∨
    ∃ (Min : BitVec 64) (LineRange : Int) (s : ParseState σ),
      checkedHeader d BaseAddr acc = .ok (.next ((Min.toInt, LineRange), s)) ∧
      Opcodes Min.toInt LineRange Stops (d.Data.drop s.Offset) s.Row := by
  have hnonempty : ∀ {Offset : Nat}, d.Data.drop Offset ≠ [] → ¬ d.Data.length ≤ Offset :=
    fun hne hend => hne (List.drop_eq_nil_iff.mpr hend)
  unfold Gsym.checkedHeader
  generalize hall : d.Data = all at h
  cases h with
  | noMinDelta => exact Or.inl ⟨_, if_pos (Nat.le_refl 0)⟩
  | @noMaxDelta _ Min n hne hmin hend =>
    subst hall
    refine Or.inl ⟨(.error (.atOffset n "missing LineTable MaxDelta"), acc), ?_⟩
    rw [if_neg (hnonempty (by rwa [List.drop_zero]))]
    refine readNumber_bind.mpr ⟨_, _, by rwa [List.drop_zero], ?_⟩
    rw [Nat.zero_add]
    exact if_pos (List.drop_eq_nil_iff.mp hend)
  | @noFirstLine _ Min Max n m hne hmin hne' hmax hlow hhigh hend =>
    subst hall
    refine Or.inl ⟨(.error (.atOffset (n + m) "missing LineTable FirstLine"), acc), ?_⟩
    rw [if_neg (hnonempty (by rwa [List.drop_zero]))]
    refine readNumber_bind.mpr ⟨_, _, by rwa [List.drop_zero], ?_⟩
    rw [Nat.zero_add]
    refine (if_neg (hnonempty hne')).trans (readNumber_bind.mpr ⟨_, _, hmax, ?_⟩)
    refine int64_bind.mpr ⟨⟨hlow, by omega⟩, int64_bind.mpr ⟨⟨by omega, hhigh⟩, ?_⟩⟩
    exact if_pos (List.drop_eq_nil_iff.mp hend)
  | opcodes hne hmin hne' hmax hlow hhigh hne'' hfirst hopcodes =>
    subst hall
    refine Or.inr ⟨_, _, ⟨_, _, acc⟩, ?_, hopcodes⟩
    rw [if_neg (hnonempty (by rwa [List.drop_zero]))]
    refine readNumber_bind.mpr ⟨_, _, by rwa [List.drop_zero], ?_⟩
    rw [Nat.zero_add]
    refine (if_neg (hnonempty hne')).trans (readNumber_bind.mpr ⟨_, _, hmax, ?_⟩)
    refine int64_bind.mpr ⟨⟨hlow, by omega⟩, int64_bind.mpr ⟨⟨by omega, hhigh⟩, ?_⟩⟩
    exact (if_neg (hnonempty hne'')).trans (readNumber_bind.mpr ⟨_, _, hfirst, rfl⟩)

theorem checkedParse_iff (d : DataExtractor) (Callback : LineEntry → σ → σ × Bool)
    (BaseAddr : BitVec 64) (acc : σ)
    (hstops : ∀ Row acc, (Callback Row acc).2 = false ↔ Stops Row) :
    (∃ r, checkedParse d BaseAddr Callback acc = some (.ok r)) ↔ Table BaseAddr Stops d.Data := by
  unfold checkedParse
  constructor
  · rintro ⟨r, h⟩
    cases hheader : checkedHeader d BaseAddr acc with
    | error f =>
      rw [hheader] at h
      cases h
    | ok t =>
      rw [hheader] at h
      obtain ⟨r, rfl, -, htable⟩ | ⟨MinDelta, LineRange, s, rfl, -, htable⟩ :=
        checkedHeader_ok Callback hheader
      · exact htable Stops
      · apply htable
        exact (runs_iff (BitVec.le_toInt MinDelta) hstops
          (Nat.lt_succ_of_le (by rw [List.length_drop]; exact Nat.sub_le _ _))).mp ⟨r, h⟩
  · intro h
    obtain ⟨r, hheader⟩ | ⟨Min, LineRange, s, hheader, hopcodes⟩ := h.checkedHeader acc
    · exact ⟨r, by rw [hheader]⟩
    · rw [hheader]
      exact (runs_iff (BitVec.le_toInt Min) hstops
        (Nat.lt_succ_of_le (by rw [List.length_drop]; exact Nat.sub_le _ _))).mpr hopcodes

end Runs

section Lookup

variable (d : DataExtractor) (BaseAddr Addr : BitVec 64)

/-- `LineTable::decode`, with its faults. -/
def checkedDecode : Option (Except Fault (Except LineTableError (List LineEntry))) :=
  (checkedParse d BaseAddr (fun Row Lines => (Lines ++ [Row], true)) []).map
    fun r => r.map fun (Err, Lines) => Err.map fun _ => Lines

/-- `LineTable::lookup`, with its faults. -/
def checkedLookup : Option (Except Fault (Except LineTableError LineEntry)) :=
  (checkedParse d BaseAddr (lookupCallback Addr) .empty).map fun r => r.map fun (Err, Result) =>
    match Err with
    | .error e => .error e
    | .ok () => if Result.isValid then .ok Result else .error (.notInTable Addr)

/-- The code ends without a fault, and its result is that of the parser. -/
def FaultFree {ρ : Type} (checked : Option (Except Fault ρ)) (result : Option ρ) : Prop :=
  ∃ r, checked = some (.ok r) ∧ result = some r

theorem decode_iff : FaultFree (checkedDecode d BaseAddr) (decode d BaseAddr) ↔
    Table BaseAddr (fun _ => False) d.Data := by
  rw [← checkedParse_iff d (fun Row (Lines : List LineEntry) => (Lines ++ [Row], true)) BaseAddr []
    fun Row Lines => by simp]
  unfold FaultFree checkedDecode decode
  constructor
  · rintro ⟨r, h, -⟩
    obtain ⟨r', h', heq⟩ := Option.map_eq_some_iff.mp h
    cases r' with
    | error f => cases heq
    | ok r' => exact ⟨r', h'⟩
  · rintro ⟨r, h⟩
    rw [h, parse_of_checkedParse h]
    exact ⟨_, rfl, rfl⟩

theorem lookup_iff : FaultFree (checkedLookup d BaseAddr Addr) (lookup d BaseAddr Addr) ↔
    Table BaseAddr (fun Row => Addr < Row.Addr) d.Data := by
  rw [← checkedParse_iff d (lookupCallback Addr) BaseAddr .empty fun Row Result => by
    unfold lookupCallback; split <;> simp [*]]
  unfold FaultFree checkedLookup lookup
  constructor
  · rintro ⟨r, h, -⟩
    obtain ⟨r', h', heq⟩ := Option.map_eq_some_iff.mp h
    cases r' with
    | error f => cases heq
    | ok r' => exact ⟨r', h'⟩
  · rintro ⟨r, h⟩
    rw [h, parse_of_checkedParse h]
    exact ⟨_, rfl, rfl⟩

/--
Both functions end for all data. They are without a fault exactly on the tables
of the grammar; a lookup reads them up to the first row after the address.
-/
theorem parsing_total :
    (checkedDecode d BaseAddr).isSome ∧ (checkedLookup d BaseAddr Addr).isSome ∧
    (FaultFree (checkedDecode d BaseAddr) (decode d BaseAddr) ↔
      Table BaseAddr (fun _ => False) d.Data) ∧
    (FaultFree (checkedLookup d BaseAddr Addr) (lookup d BaseAddr Addr) ↔
      Table BaseAddr (fun Row => Addr < Row.Addr) d.Data) := by
  refine ⟨?_, ?_, decode_iff d BaseAddr, lookup_iff d BaseAddr Addr⟩
  · obtain ⟨r, h⟩ := checkedParse_total d (fun Row Lines => (Lines ++ [Row], true)) BaseAddr []
    rw [checkedDecode, h]
    rfl
  · obtain ⟨r, h⟩ := checkedParse_total d (lookupCallback Addr) BaseAddr .empty
    rw [checkedLookup, h]
    rfl

/-- The minimum is one more than the maximum: a special opcode divides by zero. -/
def emptyRange : DataExtractor := ⟨[1, 0, 0, 4, 0], true⟩

theorem emptyRange_faults :
    checkedDecode emptyRange 0 = some (.error .divisionByZero) ∧
      checkedLookup emptyRange 0 0 = some (.error .divisionByZero) := by
  decide

end Lookup

end SmlnjLlvm.Gsym
