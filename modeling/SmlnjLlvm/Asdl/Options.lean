import SmlnjLlvm.Asdl.Integer
import SmlnjLlvm.Asdl.Sequence

/-!
# Codecs of optional values

Each writer chooses its own presence marker. The readers of `int`, `uint`,
`string` and `integer` expect a tag of 0 or 1, the readers of enumerations and
tags expect 0 for the absent value. `write_integer` is declared but not defined
in the sources, so it is a parameter here.
-/

namespace SmlnjLlvm.Asdl

open ByteDecoder BigEndian

def writeTagOption : Option Nat → Option Bytes
  | some ui => writeTag ui
  | none => writeTag 0

def writeIntOption : Option Int → Option Bytes
  | some i => do
      let bytes ← writeInt i
      some (writeTag8 1 ++ bytes)
  | none => some (writeTag8 0)

def writeUintOption : Option Nat → Option Bytes
  | some ui => do
      let bytes ← writeUint ui
      some (writeTag8 1 ++ bytes)
  | none => some (writeTag8 0)

def writeBoolOption : Option Bool → Option Bytes
  | some b => some (writeBool b)
  | none => some (writeTag8 0)

def writeIntegerOption (writeInteger : Integer → Bytes) : Option Integer → Option Bytes
  | some z => some (writeInteger z)
  | none => some (writeTag8 0)

def writeStringOption : Option Bytes → Option Bytes
  | some s => writeString s
  | none => some (writeTag8 0)

def writeSmallEnumOption : Option Nat → Option Bytes
  | some e => some (writeTag8 e)
  | none => some (writeTag8 0)

def writeBigEnumOption : Option Nat → Option Bytes
  | some e => writeUint e
  | none => writeUint 0

/-- Tag 0 is the absent value and tag 1 announces a present one. -/
def readTagged (tyName : String) (read : Reader α) : Reader (Option α) := do
  let tag ← readTag8
  match tag with
  | 0 => pure none
  | 1 => do
      let v ← read
      pure (some v)
  | _ => invalidTag tag tyName

def readTagOption : Reader (Option Nat) := do
  let v ← readTag8
  if v = 0 then pure none else pure (some v)

def readIntOption : Reader (Option Int) := readTagged "int?" readInt

def readUintOption : Reader (Option Nat) := readTagged "uint?" readUint

def readBoolOption : Reader (Option Bool) := do
  let v ← readTag8
  match v with
  | 0 => pure none
  | 1 => pure (some false)
  | 2 => pure (some true)
  | _ => invalidTag v "bool?"

def readStringOption : Reader (Option Bytes) := readTagged "string?" readString

def readIntegerOption : Reader (Option Integer) := readTagged "integer?" readInteger

def readSmallEnumOption : Reader (Option Nat) := do
  let tag ← readTag8
  if tag ≠ 0 then pure (some tag) else pure none

def readBigEnumOption : Reader (Option Nat) := do
  let tag ← readUint
  if tag ≠ 0 then pure (some tag) else pure none

/-- The pairs of a writer and a reader. -/
inductive OptionCodec where
  | tag
  | int
  | uint
  | bool
  | string
  | integer
  | smallEnum
  | bigEnum
  deriving DecidableEq, Repr

@[reducible] def OptionCodec.Val : OptionCodec → Type
  | tag => Nat
  | int => Int
  | uint => Nat
  | bool => Bool
  | string => Bytes
  | integer => Integer
  | smallEnum => Nat
  | bigEnum => Nat

section RoundTrips

variable (writeInteger : Integer → Bytes)

def OptionCodec.write : (X : OptionCodec) → Option X.Val → Option Bytes
  | tag => writeTagOption
  | int => writeIntOption
  | uint => writeUintOption
  | bool => writeBoolOption
  | string => writeStringOption
  | integer => writeIntegerOption writeInteger
  | smallEnum => writeSmallEnumOption
  | bigEnum => writeBigEnumOption

def OptionCodec.read : (X : OptionCodec) → Reader (Option X.Val)
  | tag => readTagOption
  | int => readIntOption
  | uint => readUintOption
  | bool => readBoolOption
  | string => readStringOption
  | integer => readIntegerOption
  | smallEnum => readSmallEnumOption
  | bigEnum => readBigEnumOption

/-- What was written is read back and nothing else is consumed. -/
def OptionCodec.RoundTrips (X : OptionCodec) (v : Option X.Val) : Prop :=
  ∃ bytes, X.write writeInteger v = some bytes ∧ Decodes X.read bytes v

/-- The values that survive: those whose marker the reader understands. -/
def OptionCodec.MarkerAgrees : (X : OptionCodec) → Option X.Val → Prop
  | tag, _ => False
  | int, v => ∀ i ∈ v, IntInRange i
  | uint, v => ∀ ui ∈ v, UintInRange ui
  | bool, _ => True
  | string, v => v = none
  | integer, v => v = none
  | smallEnum, v => ∀ e ∈ v, 1 ≤ e ∧ e < 256
  | bigEnum, v => ∀ e ∈ v, 1 ≤ e ∧ UintInRange e

/-! ## Markers -/

theorem readTagged_none (tyName : String) (read : Reader α) :
    Decodes (readTagged tyName read) (writeTag8 0) none := fun _ => rfl

theorem readTagged_some (tyName : String) {read : Reader α} {bytes : Bytes} {v : α}
    (h : Decodes read bytes v) :
    Decodes (readTagged tyName read) (writeTag8 1 ++ bytes) (some v) := by
  intro tail
  have hd := h.map some tail
  exact hd

theorem readTagged_some_inv {tyName : String} {read : Reader α} {bytes : Bytes} {v : α}
    (h : Decodes (readTagged tyName read) bytes (some v)) (hne : bytes ≠ []) :
    ∃ rest, bytes = 1 :: rest ∧ Decodes read rest v := by
  cases bytes with
  | nil => exact absurd rfl hne
  | cons b rest =>
    by_cases hb1 : b = 1
    · subst hb1
      refine ⟨rest, rfl, fun tail => ?_⟩
      have ht := h tail
      change (read >>= fun v => pure (some v)) (.start (rest ++ tail)) = _ at ht
      cases hr : read (.start (rest ++ tail)) with
      | error e =>
        rw [bind_error hr] at ht
        cases ht
      | ok p =>
        obtain ⟨u, is⟩ := p
        rw [bind_ok hr] at ht
        cases ht
        rfl
    · -- any other tag gives `none` or an error
      have ht := h []
      have hn : b.toNat ≠ 1 := fun he => hb1 (UInt8.toNat_inj.mp he)
      change (match b.toNat with
        | 0 => pure none
        | 1 => read >>= fun v => pure (some v)
        | _ => invalidTag b.toNat tyName : Reader (Option α)) (.start (rest ++ [])) = _ at ht
      generalize b.toNat = n at ht hn
      rcases n with _ | _ | n
      · cases ht
      · exact absurd rfl hn
      · cases ht

theorem readString_takes : Takes (fun s => 1 + s.length) readString :=
  leadByte_takes.bind fun len => Takes.many getb_takes len

theorem readString_not_self (s : Bytes) : ¬ Decodes readString s s := by
  intro h
  have hs := h []
  rw [List.append_nil] at hs
  obtain ⟨_, hlen⟩ := readString_takes _ _ _ hs rfl
  simp only [Source.start, List.length_nil] at hlen
  omega

theorem tagOption_not_decodes {v : Option Nat} {bytes : Bytes} (hw : writeTagOption v = some bytes) :
    ¬ Decodes readTagOption bytes v := by
  intro h
  cases v with
  | none =>
    cases hw
    cases h []
  | some ui =>
    obtain ⟨b0, rest, rfl, hlen, hval⟩ := writeUint_spec hw
    have ht := h []
    change (if b0.toNat = 0 then pure none else pure (some b0.toNat) : Reader (Option Nat))
      (.start (rest ++ [])) = _ at ht
    split at ht
    · cases ht
    · simp only [pure_apply, List.append_nil, Except.ok.injEq, Prod.mk.injEq, Option.some.injEq,
        Source.start, Source.mk.injEq, and_true] at ht
      obtain ⟨rfl, rfl⟩ := ht
      -- one byte was written, so it is the shifted tag itself
      rw [beFrom, show (0x3f : UInt8) = UInt8.ofNat (2 ^ 6 - 1) from rfl,
        toNat_and_mask _ 6 (by decide)] at hval
      omega

theorem readBoolOption_decodes (v : Option Bool) :
    ∃ bytes, writeBoolOption v = some bytes ∧ Decodes readBoolOption bytes v := by
  rcases v with _ | _ | _
  all_goals exact ⟨_, rfl, fun _ => rfl⟩

theorem smallEnumOption_decodes_iff (e : Nat) :
    Decodes readSmallEnumOption (writeTag8 e) (some e) ↔ 1 ≤ e ∧ e < 256 := by
  have hread : ∀ tail, readSmallEnumOption (.start (writeTag8 e ++ tail)) =
      .ok (if e % 256 ≠ 0 then some (e % 256) else none, .start tail) := by
    intro tail
    change (if (putb e).toNat ≠ 0 then pure (some (putb e).toNat) else pure none :
      Reader (Option Nat)) (.start tail) = _
    rw [putb_toNat]
    split <;> rfl
  constructor
  · intro h
    have ht := h []
    rw [hread] at ht
    simp only [Except.ok.injEq, Prod.mk.injEq, and_true] at ht
    split at ht
    · rw [Option.some.injEq] at ht
      omega
    · cases ht
  · intro he tail
    rw [hread, Nat.mod_eq_of_lt he.2, if_pos (by omega)]

theorem bigEnumOption_decodes {e : Nat} {bytes : Bytes} (hw : writeUint e = some bytes) :
    Decodes readBigEnumOption bytes (if e ≠ 0 then some e else none) := by
  intro tail
  have hd := readUint_decodes hw tail
  rw [readBigEnumOption, bind_ok hd]
  split <;> rfl

theorem writeInt_some_iff {i : Int} : (∃ bytes, writeInt i = some bytes) ↔ IntInRange i := by
  refine ⟨?_, writeInt_some⟩
  rintro ⟨bytes, hw⟩
  unfold writeInt at hw
  split at hw
  · rw [IntInRange]
    omega
  · cases hw

theorem writeUint_some_iff {ui : Nat} : (∃ bytes, writeUint ui = some bytes) ↔ UintInRange ui := by
  refine ⟨?_, writeUint_some⟩
  rintro ⟨bytes, hw⟩
  unfold writeUint at hw
  rw [UintInRange]
  split_ifs at hw <;> omega

theorem tagged_roundTrips_iff {write : α → Option Bytes} {read : Reader α} (tyName : String)
    (hd : ∀ v bytes, write v = some bytes → Decodes read bytes v) (v : α) :
    (∃ bytes, (do
        let bytes ← write v
        some (writeTag8 1 ++ bytes)) = some bytes ∧
      Decodes (readTagged tyName read) bytes (some v)) ↔ ∃ bytes, write v = some bytes := by
  cases hw : write v with
  | none => simp
  | some payload =>
    refine ⟨fun _ => ⟨payload, rfl⟩, fun _ => ⟨writeTag8 1 ++ payload, rfl, ?_⟩⟩
    exact readTagged_some tyName (hd v payload hw)

theorem string_not_roundTrips (s : Bytes) :
    ¬ ∃ bytes, writeString s = some bytes ∧ Decodes readStringOption bytes (some s) := by
  rintro ⟨bytes, hw, hd⟩
  rw [writeString] at hw
  generalize hl : writeUint (s.length % 2 ^ 32) = written at hw
  cases written with
  | none => cases hw
  | some len =>
    simp only [Option.bind_eq_bind, Option.bind_some, Option.some.injEq] at hw
    subst hw
    obtain ⟨b0, rest, rfl, hlen, hval⟩ := writeUint_spec hl
    obtain ⟨more, heq, hs⟩ := readTagged_some_inv hd (by simp)
    obtain ⟨rfl, rfl⟩ := heq
    -- a first byte of 1 is a whole count, so the characters would encode themselves
    obtain rfl : rest = [] := List.eq_nil_of_length_eq_zero hlen
    exact readString_not_self s hs

theorem integer_not_roundTrips {z : Integer} {bytes : Bytes} (h : IntegerEncoding bytes) :
    ¬ Decodes readIntegerOption bytes (some z) := by
  intro hd
  cases bytes with
  | nil => exact h.elim
  | cons b rest =>
    obtain ⟨more, heq, hz⟩ := readTagged_some_inv hd (by simp)
    obtain ⟨rfl, rfl⟩ := heq
    cases rest with
    | cons c rest => exact h.1 (by decide)
    | nil =>
      -- nothing follows the tag, and an integer takes at least one byte
      have herr := (readInteger_cut (show IntegerEncoding [0] from rfl) [] [0] rfl
        (by simp)).1 (Or.inr trivial)
      rw [show ([] : Bytes) = [] ++ [] from rfl, hz []] at herr
      cases herr

end RoundTrips

end SmlnjLlvm.Asdl
