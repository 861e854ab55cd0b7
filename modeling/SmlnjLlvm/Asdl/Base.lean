import Mathlib.Tactic.IntervalCases
import SmlnjLlvm.Asdl.Stream

/-!
# Base value codecs

Integers take one to four bytes: two length bits, then a sign bit for `int`,
then the payload, most significant bits first. A writer returns `none` where
its assertion fails.
-/

namespace SmlnjLlvm.Asdl

open ByteDecoder BigEndian

/-- `os.putb (static_cast<unsigned char>(n))`. -/
def putb (n : Nat) : UInt8 := UInt8.ofNat n

def writeInt (i : Int) : Option Bytes :=
  if -536870912 ≤ i ∧ i < 536870912 then
    let sign := if i < 0 then 0x20 else 0
    let ui := if i < 0 then (-(i + 1)).toNat else i.toNat
    if ui ≤ 0x1f then
      some [putb (sign ||| ui)]
    else if ui ≤ 0x1fff then
      some [putb (0x40 ||| sign ||| (ui >>> 8)), putb ui]
    else if ui ≤ 0x1fffff then
      some [putb (0x80 ||| sign ||| (ui >>> 16)), putb (ui >>> 8), putb ui]
    else
      some [putb (0xc0 ||| sign ||| (ui >>> 24)), putb (ui >>> 16), putb (ui >>> 8), putb ui]
  else none

def writeUint (ui : Nat) : Option Bytes :=
  if ui ≤ 0x3f then
    some [putb ui]
  else if ui ≤ 0x3fff then
    some [putb (0x40 ||| (ui >>> 8)), putb ui]
  else if ui ≤ 0x3fffff then
    some [putb (0x80 ||| (ui >>> 16)), putb (ui >>> 8), putb ui]
  else if ui ≤ 0x3fffffff then
    some [putb (0xc0 ||| (ui >>> 24)), putb (ui >>> 16), putb (ui >>> 8), putb ui]
  else none

def writeTag8 (ui : Nat) : Bytes := [putb ui]

def writeBool (b : Bool) : Bytes := if b then writeTag8 2 else writeTag8 1

/-- The sum is an `unsigned int`. -/
def writeTag (ui : Nat) : Option Bytes := writeUint ((ui + 1) % 2 ^ 32)

/-- The length is a `size_t`, passed to `write_uint` as an `unsigned int`. -/
def writeString (s : Bytes) : Option Bytes := do
  let len ← writeUint (s.length % 2 ^ 32)
  some (len ++ s)

def readInt : Reader Int :=
  leadByte (fun b0 => (b0 >>> 6).toNat) (fun b0 => (b0 &&& 0x1f).toNat) fun b0 v =>
    if b0 &&& 0x20 ≠ 0 then -(v : Int) - 1 else v

def readUint : Reader Nat :=
  leadByte (fun b0 => (b0 >>> 6).toNat) (fun b0 => (b0 &&& 0x3f).toNat) fun _ v => v

def readTag8 : Reader Nat := do
  let b ← getb
  pure b.toNat

def readBool : Reader Bool := do
  let tag ← readTag8
  match tag with
  | 1 => pure false
  | 2 => pure true
  | _ => invalidTag tag "bool"

def readTag : Reader Nat := readUint

def readString : Reader Bytes := do
  let len ← readUint
  readMany getc len

theorem putb_toNat (n : Nat) : (putb n).toNat = n % 256 := byte_toNat_ofNat n

theorem shiftRight_toNat (b : UInt8) : (b >>> 6).toNat = b.toNat / 64 := by
  rw [UInt8.toNat_shiftRight]
  exact Nat.shiftRight_eq_div_pow b.toNat 6

theorem lead_uint (field hi : Nat) {k : Nat} (hf : field = 2 ^ 6 * k) (hk : k < 4) (hhi : hi < 64) :
    ((putb (field ||| hi)) >>> 6).toNat = k ∧ ((putb (field ||| hi)) &&& 0x3f).toNat = hi := by
  have hb : (putb (field ||| hi)).toNat = 64 * k + hi := by
    rw [hf, field_or (by omega), putb_toNat]
    omega
  refine ⟨?_, ?_⟩
  · rw [shiftRight_toNat, hb]
    omega
  · rw [show (0x3f : UInt8) = UInt8.ofNat (2 ^ 6 - 1) from rfl, toNat_and_mask _ 6 (by decide), hb]
    omega

theorem lead_int (field hi : Nat) {sign k : Nat} {negative : Prop} [Decidable negative]
    (hf : field = 2 ^ 6 * k) (hs : (if negative then 0x20 else 0) = sign) (hk : k < 4)
    (hhi : hi < 32) :
    ((putb (field ||| sign ||| hi)) >>> 6).toNat = k ∧
      ((putb (field ||| sign ||| hi)) &&& 0x1f).toNat = hi ∧
      ((putb (field ||| sign ||| hi)) &&& 0x20 ≠ 0 ↔ negative) := by
  have hsign : field ||| sign = 2 ^ 5 * (2 * k + if negative then 1 else 0) := by
    rw [hf, ← hs, field_or (by split <;> decide)]
    split <;> omega
  have hb : (putb (field ||| sign ||| hi)).toNat =
      32 * (2 * k + if negative then 1 else 0) + hi := by
    rw [hsign, field_or (by omega), putb_toNat]
    split <;> omega
  refine ⟨?_, ?_, ?_⟩
  · rw [shiftRight_toNat, hb]
    split <;> omega
  · rw [show (0x1f : UInt8) = UInt8.ofNat (2 ^ 5 - 1) from rfl, toNat_and_mask _ 5 (by decide), hb]
    omega
  · rw [show (0x20 : UInt8) = UInt8.ofNat (2 ^ 5) from rfl, and_bit_ne_zero _ 5 (by decide), hb]
    by_cases hn : negative
    · simp only [hn, if_true, iff_true]
      omega
    · simp only [hn, if_false, iff_false]
      omega

theorem beFrom_payload (a : Nat) (rest : Bytes) :
    beFrom (a >>> 8) (putb a :: rest) = beFrom a rest := by
  rw [beFrom_cons, putb_toNat, Nat.shiftRight_eq_div_pow]
  congr 1
  omega

theorem beFrom_two (a : Nat) : beFrom (a >>> 8) [putb a] = a := beFrom_payload a []

theorem beFrom_three (a : Nat) : beFrom (a >>> 16) [putb (a >>> 8), putb a] = a := by
  rw [show a >>> 16 = (a >>> 8) >>> 8 from Nat.shiftRight_add a 8 8, beFrom_payload, beFrom_two]

theorem beFrom_four (a : Nat) :
    beFrom (a >>> 24) [putb (a >>> 16), putb (a >>> 8), putb a] = a := by
  rw [show a >>> 24 = (a >>> 16) >>> 8 from Nat.shiftRight_add a 16 8, beFrom_payload,
    beFrom_three]

theorem writeUint_spec {ui : Nat} {bytes : Bytes} (h : writeUint ui = some bytes) :
    ∃ b0 rest, bytes = b0 :: rest ∧ rest.length = (b0 >>> 6).toNat ∧
      beFrom (b0 &&& 0x3f).toNat rest = ui := by
  unfold writeUint at h
  split_ifs at h with h1 h2 h3 h4 <;> rw [Option.some.injEq] at h <;> subst h <;>
    refine ⟨_, _, rfl, ?_⟩
  · obtain ⟨hlen, hval⟩ := lead_uint 0 ui (k := 0) rfl (by decide) (by omega)
    rw [Nat.zero_or] at hlen hval
    exact ⟨hlen.symm, hval⟩
  · obtain ⟨hlen, hval⟩ :=
      lead_uint 0x40 (ui >>> 8) rfl (by decide : 1 < 4) (by omega)
    exact ⟨hlen.symm, by rw [hval]; exact beFrom_two ui⟩
  · obtain ⟨hlen, hval⟩ :=
      lead_uint 0x80 (ui >>> 16) rfl (by decide : 2 < 4) (by omega)
    exact ⟨hlen.symm, by rw [hval]; exact beFrom_three ui⟩
  · obtain ⟨hlen, hval⟩ :=
      lead_uint 0xc0 (ui >>> 24) rfl (by decide : 3 < 4) (by omega)
    exact ⟨hlen.symm, by rw [hval]; exact beFrom_four ui⟩

theorem writeInt_spec {i : Int} {bytes : Bytes} (h : writeInt i = some bytes) :
    ∃ b0 rest, bytes = b0 :: rest ∧ rest.length = (b0 >>> 6).toNat ∧
      (b0 &&& 0x20 ≠ 0 ↔ i < 0) ∧
      beFrom (b0 &&& 0x1f).toNat rest = if i < 0 then (-(i + 1)).toNat else i.toNat := by
  unfold writeInt at h
  dsimp only at h
  generalize hui : (if i < 0 then (-(i + 1)).toNat else i.toNat) = ui at h ⊢
  generalize hsign : (if i < 0 then 0x20 else 0) = sign at h
  split_ifs at h with hi h1 h2 h3
  all_goals rw [Option.some.injEq] at h; subst h; refine ⟨_, _, rfl, ?_⟩
  · obtain ⟨hlen, hval, hneg⟩ := lead_int 0 ui (k := 0) rfl hsign (by decide) (by omega)
    rw [Nat.zero_or] at hlen hval hneg
    exact ⟨hlen.symm, hneg, hval⟩
  · obtain ⟨hlen, hval, hneg⟩ :=
      lead_int 0x40 (ui >>> 8) rfl hsign (by decide : 1 < 4) (by omega)
    exact ⟨hlen.symm, hneg, by rw [hval]; exact beFrom_two ui⟩
  · obtain ⟨hlen, hval, hneg⟩ :=
      lead_int 0x80 (ui >>> 16) rfl hsign (by decide : 2 < 4) (by omega)
    exact ⟨hlen.symm, hneg, by rw [hval]; exact beFrom_three ui⟩
  · -- the assertion bounds the magnitude by 29 bits
    have hmax : ui < 2 ^ 29 := by
      split at hui <;> omega
    obtain ⟨hlen, hval, hneg⟩ :=
      lead_int 0xc0 (ui >>> 24) rfl hsign (by decide : 3 < 4) (by omega)
    exact ⟨hlen.symm, hneg, by rw [hval]; exact beFrom_four ui⟩

theorem readUint_decodes {ui : Nat} {bytes : Bytes} (h : writeUint ui = some bytes) :
    Decodes readUint bytes ui := by
  obtain ⟨b0, rest, rfl, hlen, hval⟩ := writeUint_spec h
  have hd : Decodes readUint (b0 :: rest) (beFrom (b0 &&& 0x3f).toNat rest) :=
    leadByte_decodes hlen
  rwa [hval] at hd

theorem readInt_decodes {i : Int} {bytes : Bytes} (h : writeInt i = some bytes) :
    Decodes readInt bytes i := by
  obtain ⟨b0, rest, rfl, hlen, hneg, hval⟩ := writeInt_spec h
  have hd : Decodes readInt (b0 :: rest) (if b0 &&& 0x20 ≠ 0 then
      -(beFrom (b0 &&& 0x1f).toNat rest : Int) - 1 else beFrom (b0 &&& 0x1f).toNat rest) :=
    leadByte_decodes hlen
  rw [hval] at hd
  have hi : (if b0 &&& 0x20 ≠ 0 then
      -((if i < 0 then (-(i + 1)).toNat else i.toNat : Nat) : Int) - 1
      else ((if i < 0 then (-(i + 1)).toNat else i.toNat : Nat) : Int)) = i := by
    by_cases hs : i < 0
    · rw [if_pos (hneg.mpr hs), if_pos hs]
      omega
    · rw [if_neg (fun hb => hs (hneg.mp hb)), if_neg hs]
      omega
  rwa [hi] at hd

theorem readTag8_decodes {tag : Nat} (h : tag < 256) : Decodes readTag8 (writeTag8 tag) tag := by
  have hd := (getb_decodes (putb tag)).map (fun b => b.toNat)
  rwa [show (putb tag).toNat = tag from byte_ofNat_toNat h] at hd

theorem readBool_decodes (b : Bool) : Decodes readBool (writeBool b) b := by
  intro tail
  cases b <;> rfl

theorem getc_many_decodes (s : Bytes) : Decodes (readMany getc s.length) s s := by
  have hall : List.Forall₂ (fun xs c => Decodes getc xs (id c)) (s.map fun c => [c]) s := by
    induction s with
    | nil => exact .nil
    | cons c s ih => exact .cons (getb_decodes c) ih
  have hd := Decodes.many id hall
  rwa [← List.flatMap_def, List.flatMap_singleton', List.map_id] at hd

theorem readString_decodes {s bytes : Bytes} (hs : s.length < 2 ^ 32)
    (h : writeString s = some bytes) : Decodes readString bytes s := by
  unfold writeString at h
  rw [Nat.mod_eq_of_lt hs] at h
  cases hl : writeUint s.length with
  | none => simp [hl] at h
  | some len =>
    simp only [hl, Option.bind_eq_bind, Option.bind_some, Option.some.injEq] at h
    subst h
    exact (readUint_decodes hl).bind (getc_many_decodes s)

theorem writeUint_shortest {ui : Nat} (h : ui < 2 ^ 30) :
    ∃ bytes, writeUint ui = some bytes ∧ 1 ≤ bytes.length ∧ bytes.length ≤ 4 ∧
      ∀ len, 1 ≤ len → len ≤ 4 → (ui < 2 ^ (8 * len - 2) ↔ bytes.length ≤ len) := by
  unfold writeUint
  split_ifs with h1 h2 h3 h4
  case neg => omega
  all_goals
    refine ⟨_, rfl, by simp, by simp, fun len hlo hhi => ?_⟩
    interval_cases len <;> simp <;> omega

theorem writeInt_shortest {i : Int} (hlo : -2 ^ 29 ≤ i) (hhi : i < 2 ^ 29) :
    ∃ bytes, writeInt i = some bytes ∧ 1 ≤ bytes.length ∧ bytes.length ≤ 4 ∧
      ∀ len, 1 ≤ len → len ≤ 4 →
        (-2 ^ (8 * len - 3) ≤ i ∧ i < 2 ^ (8 * len - 3) ↔ bytes.length ≤ len) := by
  unfold writeInt
  rw [if_pos (by omega)]
  generalize hui : (if i < 0 then (-(i + 1)).toNat else i.toNat) = ui
  generalize (if i < 0 then 0x20 else 0) = sign
  -- the folded magnitude is below a bound exactly when `i` is in the signed range of that width
  have hrange : ∀ n : Nat, (-(n : Int) ≤ i ∧ i < n) ↔ ui < n := by
    intro n
    split at hui <;> omega
  have hcap : ∀ k : Nat, (-2 ^ k ≤ i ∧ i < 2 ^ k) ↔ ui < 2 ^ k := by
    intro k
    simpa using hrange (2 ^ k)
  simp only [hcap]
  split_ifs with h1 h2 h3
  case neg =>
    have hmax : ui < 2 ^ 29 := by
      split at hui <;> omega
    refine ⟨_, rfl, by simp, by simp, fun len hlo hhi => ?_⟩
    interval_cases len <;> simp <;> omega
  all_goals
    refine ⟨_, rfl, by simp, by simp, fun len hlo hhi => ?_⟩
    interval_cases len <;> simp <;> omega

end SmlnjLlvm.Asdl
