import SmlnjLlvm.Asdl.Base

/-!
# Multiprecision integers

`asdl::integer` keeps a sign and 32-bit digits, most significant first. Its
stream constructor reads a first byte with a continuation bit, a sign bit and
six value bits, then seven value bits per byte, and repacks them.
-/

namespace SmlnjLlvm.Asdl

open ByteDecoder BigEndian

structure Integer where
  sign : Bool
  digits : List UInt32
  deriving DecidableEq, Repr

/-- The result digits, the digit under construction, and its free bits. -/
structure Packing where
  digits : List UInt32
  w : UInt32
  availBits : UInt32

def firstBits (b : UInt8) : Nat :=
  if b > 0x1f then 6
  else if b > 0xf then 5
  else if b > 0x7 then 4
  else if b > 0x3 then 3
  else if b > 0x1 then 2
  else if b > 0x0 then 1
  else 0

def castInt (v : Nat) : Int := (BitVec.ofNat 32 v).toInt

def packFirst (b : UInt8) (nbits : Nat) : Packing :=
  let availBits := if nbits % 32 = 0 then 32 else nbits % 32
  if availBits < firstBits b then
    let k := firstBits b - availBits
    ⟨[b.toUInt32 >>> UInt32.ofNat k], b.toUInt32 &&& ((1 <<< UInt32.ofNat k) - 1),
      UInt32.ofNat (32 - k)⟩
  else ⟨[], b.toUInt32, UInt32.ofNat (availBits - firstBits b)⟩

def packNext (st : Packing) (b : UInt8) : Packing :=
  if st.availBits ≥ 7 then
    { st with w := (st.w <<< 7) ||| b.toUInt32, availBits := st.availBits - 7 }
  else
    let excessBits := 7 - st.availBits
    ⟨st.digits ++ [(st.w <<< st.availBits) ||| (b.toUInt32 >>> excessBits)],
      b.toUInt32 &&& ((1 <<< excessBits) - 1), 32 - excessBits⟩

def Integer.ofGroups (sign : Bool) (b : UInt8) (groups : Bytes) : Integer :=
  let nbits := castInt (groups.length * 7 + firstBits b)
  if nbits > 0 then
    let st := groups.foldl packNext (packFirst b nbits.toNat)
    ⟨sign, st.digits ++ [st.w]⟩
  else ⟨sign, []⟩

/-! ## Reading the groups -/

def fuel (is : Source) : Nat := is.rest.length + is.good.toNat

theorem getb_fuel {is is' : Source} {b : UInt8} (h : getb is = .ok (b, is')) :
    fuel is' < fuel is := by
  obtain ⟨rest, good⟩ := is
  cases good with
  | false => cases h
  | true =>
    cases rest with
    | nil => cases h; decide
    | cons c rest =>
      cases h
      simp [fuel]

def groupLoop (b : UInt8) (is : Source) : Except DecodeError (Bytes × Source) :=
  if b &&& 0x80 ≠ 0 then
    match _h : getb is with
    | .ok (b', is') =>
      match groupLoop b' is' with
      | .ok (groups, is'') => .ok ((b' &&& 0x7f) :: groups, is'')
      | .error e => .error e
    | .error e => .error e
  else .ok ([], is)
termination_by fuel is
decreasing_by exact getb_fuel _h

def readGroups (b : UInt8) : Reader Bytes := groupLoop b

def readInteger : Reader Integer := do
  let b ← getb
  let groups ← readGroups b
  pure (Integer.ofGroups (b &&& 0x40 ≠ 0) (b &&& 0x3f) groups)

def IntegerEncoding : Bytes → Prop
  | [] => False
  | [b] => b &&& 0x80 = 0
  | b :: c :: rest => b &&& 0x80 ≠ 0 ∧ IntegerEncoding (c :: rest)

def Integer.ofEncoding : Bytes → Integer
  | [] => ⟨false, []⟩
  | b :: rest => .ofGroups (b &&& 0x40 ≠ 0) (b &&& 0x3f) (rest.map (· &&& 0x7f))

theorem readGroups_eq (b : UInt8) : readGroups b =
    if b &&& 0x80 ≠ 0 then (do
      let b' ← getb
      let groups ← readGroups b'
      pure ((b' &&& 0x7f) :: groups)) else pure [] := by
  funext is
  change groupLoop b is = _
  rw [groupLoop]
  by_cases hb : b &&& 0x80 ≠ 0
  · rw [if_pos hb, if_pos hb]
    cases hg : getb is with
    | error e => exact (bind_error hg).symm
    | ok p =>
      obtain ⟨b', is'⟩ := p
      rw [bind_ok hg]
      dsimp only
      cases hr : readGroups b' is' with
      | error e =>
        rw [bind_error hr, show groupLoop b' is' = .error e from hr]
      | ok q =>
        rw [bind_ok hr, show groupLoop b' is' = .ok q from hr]
        rfl
  · rw [if_neg hb, if_neg hb]
    rfl

theorem readGroups_decodes (b : UInt8) (rest : Bytes) (h : IntegerEncoding (b :: rest)) :
    Decodes (readGroups b) rest (rest.map (· &&& 0x7f)) := by
  induction rest generalizing b with
  | nil =>
    have hb : ¬ (b &&& 0x80 ≠ 0) := not_not.mpr h
    rw [readGroups_eq, if_neg hb]
    exact Decodes.pure []
  | cons c rest ih =>
    rw [readGroups_eq, if_pos h.1]
    exact (getb_decodes c).bind ((ih c h.2).map _)

theorem readInteger_decodes {bytes : Bytes} (h : IntegerEncoding bytes) :
    Decodes readInteger bytes (.ofEncoding bytes) := by
  cases bytes with
  | nil => exact h.elim
  | cons b rest => exact (getb_decodes b).bind ((readGroups_decodes b rest h).map _)

theorem readGroups_eof_hungry : Hungry DecodeError.invalidIOState (readGroups eofByte) := by
  rw [readGroups_eq, if_pos (by decide)]
  exact getb_hungry.bind

theorem readGroups_cut (b : UInt8) (rest : Bytes) (h : IntegerEncoding (b :: rest)) :
    Cut DecodeError.invalidIOState (readGroups b) rest True fun _ => True := by
  induction rest generalizing b with
  | nil => exact Cut.nil
  | cons c rest ih =>
    rw [readGroups_eq, if_pos h.1]
    have hungry : ∀ a, a = eofByte → Hungry DecodeError.invalidIOState
        (readGroups a >>= fun groups => (pure ((a &&& 0x7f) :: groups) : Reader Bytes)) := by
      rintro a rfl
      exact Hungry.bind readGroups_eof_hungry
    cases rest with
    | nil => exact (getb_cut c).bind_hungry hungry
    | cons d rest =>
      exact Cut.bind (getb_decodes c) (getb_cut c) hungry ((ih c h.2).map _) (by simp)

theorem readInteger_cut {bytes : Bytes} (h : IntegerEncoding bytes) :
    Cut DecodeError.invalidIOState readInteger bytes True fun _ => True := by
  cases bytes with
  | nil => exact Cut.nil
  | cons b rest =>
    have hungry : ∀ a, a = eofByte → Hungry DecodeError.invalidIOState
        (readGroups a >>= fun groups =>
          (pure (Integer.ofGroups (a &&& 0x40 ≠ 0) (a &&& 0x3f) groups) : Reader Integer)) := by
      rintro a rfl
      exact Hungry.bind readGroups_eof_hungry
    cases rest with
    | nil => exact (getb_cut b).bind_hungry hungry
    | cons c rest =>
      exact Cut.bind (getb_decodes b) (getb_cut b) hungry
        ((readGroups_cut b (c :: rest) h).map _) (by simp)

theorem readInteger_hungry : Hungry DecodeError.invalidIOState readInteger := getb_hungry.bind

end SmlnjLlvm.Asdl
