import SmlnjLlvm.Library.BitString
import SmlnjLlvm.Library.Outcome
import Mathlib.Data.BitVec

/-!
# The bit cursor

`SimpleBitstreamCursor` reads a byte string through a cached word of 64 bits.
Positions are natural numbers: a byte string in memory is far shorter than the
2^61 bytes from which on a bit number would wrap.
-/

namespace SmlnjLlvm.Bitstream

open BitString

inductive Errc where
  | io_error
  | illegal_byte_sequence
  deriving DecidableEq, Repr

/-- An error made by `createStringError`, before its arguments are printed. -/
structure StringError where
  code : Errc
  format : String
  args : List Nat := []
  deriving DecidableEq, Repr

structure SimpleBitstreamCursor where
  BitcodeBytes : Bytes
  NextChar : Nat := 0
  CurWord : BitVec 64 := 0
  BitsInCurWord : Nat := 0
  deriving DecidableEq, Repr

variable {b n : Nat}

namespace SimpleBitstreamCursor

abbrev Run (α : Type) := Call SimpleBitstreamCursor StringError α

def canSkipToPos (c : SimpleBitstreamCursor) (pos : Nat) : Prop := pos ≤ c.BitcodeBytes.length

instance (c : SimpleBitstreamCursor) (pos : Nat) : Decidable (c.canSkipToPos pos) :=
  inferInstanceAs (Decidable (pos ≤ c.BitcodeBytes.length))

def AtEndOfStream (c : SimpleBitstreamCursor) : Bool :=
  c.BitsInCurWord == 0 && decide (c.BitcodeBytes.length ≤ c.NextChar)

def GetCurrentBitNo (c : SimpleBitstreamCursor) : Nat := c.NextChar * 8 - c.BitsInCurWord

def isSizePlausible (c : SimpleBitstreamCursor) (Size : Nat) : Bool :=
  decide (Size < c.BitcodeBytes.length * 8)

/-- `support::endian::read` of a whole word. -/
def endianRead (chars : Bytes) : BitVec 64 := .ofNat 64 (Digits.value 256 (byte chars) 0 8)

/-- The loop of the short read at the end of the stream. -/
def shortRead (chars : Bytes) : Nat → BitVec 64
  | 0 => 0
  | B + 1 => shortRead chars B ||| BitVec.ofNat 64 (byte chars B) <<< (B * 8)

/-- Read bytes from `NextChar` on into the current word. -/
def load (c : SimpleBitstreamCursor) (BytesRead : Nat) (word : Bytes → BitVec 64) :
    Outcome StringError (Unit × SimpleBitstreamCursor) :=
  match slice c.BitcodeBytes c.NextChar BytesRead with
  | none => .stuck
  | some chars => .ok ((), { c with
      CurWord := word chars
      NextChar := c.NextChar + BytesRead
      BitsInCurWord := BytesRead * 8 })

def fillCurWord : Run Unit := fun c =>
  if c.BitcodeBytes.length ≤ c.NextChar then
    .error ⟨.io_error, "Unexpected end of file reading %u of %u bytes",
      [c.NextChar, c.BitcodeBytes.length]⟩
  else if c.NextChar + 8 ≤ c.BitcodeBytes.length then load c 8 endianRead
  else
    let BytesRead := c.BitcodeBytes.length - c.NextChar
    load c BytesRead fun chars => shortRead chars BytesRead

/-- Take the low bits of the current word; the mask keeps the shift below 64. -/
def take (NumBits : Nat) : Run (BitVec 64) := fun c =>
  .ok (c.CurWord &&& (BitVec.allOnes 64 >>> (64 - NumBits)), { c with
    CurWord := c.CurWord >>> (NumBits &&& 0x3f)
    BitsInCurWord := c.BitsInCurWord - NumBits })

def Read (NumBits : Nat) : Run (BitVec 64) := do
  Call.assert (1 ≤ NumBits ∧ NumBits ≤ 64)
  let c ← get
  if NumBits ≤ c.BitsInCurWord then
    take NumBits
  else
    let R := if c.BitsInCurWord ≠ 0 then c.CurWord else 0
    let BitsLeft := NumBits - c.BitsInCurWord
    fillCurWord
    let c ← get
    if c.BitsInCurWord < BitsLeft then
      Call.fail ⟨.io_error, "Unexpected end of file reading %u of %u bits",
        [c.BitsInCurWord, BitsLeft]⟩
    else
      let R2 ← take BitsLeft
      pure (R ||| R2 <<< (NumBits - BitsLeft))

/-- The loop of `ReadVBR` and `ReadVBR64`, for results of `W` bits. -/
def vbrLoop (W NumBits : Nat) (Mask : BitVec 32) :
    Nat → BitVec W → Nat → BitVec 32 → Run (BitVec W)
  | 0, _, _, _ => Call.stuck
  | fuel + 1, Result, NextBit, Piece =>
    let Result := Result ||| (Piece &&& (Mask - 1)).setWidth W <<< NextBit
    if Piece &&& Mask = 0 then
      pure Result
    else
      let NextBit := NextBit + (NumBits - 1)
      if W ≤ NextBit then
        Call.fail ⟨.illegal_byte_sequence, "Unterminated VBR", []⟩
      else do
        let MaybeRead ← Read NumBits
        vbrLoop W NumBits Mask fuel Result NextBit (MaybeRead.setWidth 32)

/-- `ReadVBR` and `ReadVBR64`. Each piece takes at least one bit, so that what is left of the
string bounds the number of turns. -/
def readVBRInto (W NumBits : Nat) : Run (BitVec W) := do
  let MaybeRead ← Read NumBits
  let Piece := MaybeRead.setWidth 32
  Call.assert (NumBits ≤ 32 ∧ 1 ≤ NumBits)
  let Mask := BitVec.twoPow 32 (NumBits - 1)
  if Piece &&& Mask = 0 then
    pure (Piece.setWidth W)
  else
    let c ← get
    vbrLoop W NumBits Mask (size c.BitcodeBytes - c.GetCurrentBitNo + 1) 0 0 Piece

def ReadVBR (NumBits : Nat) : Run (BitVec 32) := readVBRInto 32 NumBits

def ReadVBR64 (NumBits : Nat) : Run (BitVec 64) := readVBRInto 64 NumBits

def SkipToFourByteBoundary : Run Unit :=
  modify fun c =>
    if 32 ≤ c.BitsInCurWord then
      { c with CurWord := c.CurWord >>> (c.BitsInCurWord - 32), BitsInCurWord := 32 }
    else
      { c with BitsInCurWord := 0 }

def JumpToBit (BitNo : Nat) : Run Unit := do
  -- `BitNo / 8` with its three low bits cleared
  let ByteNo := BitNo / 8 / 8 * 8
  let WordBitNo := BitNo % 64
  let c ← get
  Call.assert (c.canSkipToPos ByteNo)
  set { c with NextChar := ByteNo, BitsInCurWord := 0 }
  if WordBitNo ≠ 0 then
    let _ ← Read WordBitNo
    pure ()
  else
    pure ()

def skipToEnd : Run Unit := modify fun c => { c with NextChar := c.BitcodeBytes.length }

theorem toNat_low_bits (w : BitVec 64) (hn : n ≤ 64) :
    (w &&& (BitVec.allOnes 64 >>> (64 - n))).toNat = w.toNat % 2 ^ n := by
  have hmask : (BitVec.allOnes 64 >>> (64 - n)).toNat = 2 ^ n - 1 := by
    have hpow : 2 ^ n * 2 ^ (64 - n) = 2 ^ 64 := by rw [← Nat.pow_add, Nat.add_sub_cancel' hn]
    have hdiv : (2 ^ n * 2 ^ (64 - n) - 1) / 2 ^ (64 - n) = 2 ^ n - 1 := by
      have hpos := Nat.mul_pos (Nat.two_pow_pos (64 - n)) (Nat.two_pow_pos n)
      rw [Nat.mul_comm, Nat.mul_sub_div 0 _ _ hpos, Nat.zero_div, Nat.zero_add]
    rw [BitVec.toNat_ushiftRight, BitVec.toNat_allOnes, Nat.shiftRight_eq_div_pow, ← hpow, hdiv]
  rw [BitVec.toNat_and, hmask, Nat.and_two_pow_sub_one_eq_mod]

theorem toNat_drop_bits (w : BitVec 64) (hn : n < 64) :
    (w >>> (n &&& 0x3f)).toNat = w.toNat / 2 ^ n := by
  have hmask : n &&& 0x3f = n := by
    rw [show 0x3f = 2 ^ 6 - 1 from rfl, Nat.and_two_pow_sub_one_eq_mod, Nat.mod_eq_of_lt hn]
  rw [hmask, BitVec.toNat_ushiftRight, Nat.shiftRight_eq_div_pow]

theorem toNat_or_shiftLeft {W : Nat} {a b : BitVec W} {k m : Nat} (ha : a.toNat < 2 ^ k)
    (hb : b.toNat < 2 ^ m) (hle : k + m ≤ W) :
    (a ||| b <<< k).toNat = a.toNat + 2 ^ k * b.toNat := by
  have hlt : b.toNat <<< k < 2 ^ W := by
    calc b.toNat <<< k = b.toNat * 2 ^ k := Nat.shiftLeft_eq _ _
      _ < 2 ^ m * 2 ^ k := Nat.mul_lt_mul_of_pos_right hb (Nat.two_pow_pos k)
      _ = 2 ^ (k + m) := by rw [← Nat.pow_add, Nat.add_comm]
      _ ≤ 2 ^ W := Nat.pow_le_pow_right (by decide) hle
  rw [BitVec.toNat_or, BitVec.toNat_shiftLeft, Nat.mod_eq_of_lt hlt, Nat.or_comm,
    ← Nat.shiftLeft_add_eq_or_of_lt ha, Nat.shiftLeft_eq, Nat.mul_comm, Nat.add_comm]

theorem toNat_endianRead (chars : Bytes) :
    (endianRead chars).toNat = Digits.value 256 (byte chars) 0 8 := by
  have hlt : Digits.value 256 (byte chars) 0 8 < 2 ^ 64 :=
    Digits.value_lt (b := 256) fun i _ => byte_lt (0 + i)
  rw [endianRead, BitVec.toNat_ofNat, Nat.mod_eq_of_lt hlt]

theorem toNat_shortRead (chars : Bytes) (hn : n ≤ 8) :
    (shortRead chars n).toNat = Digits.value 256 (byte chars) 0 n := by
  induction n with
  | zero => rfl
  | succ n ih =>
    have hbyte : (BitVec.ofNat 64 (byte chars n)).toNat = byte chars n := by
      rw [BitVec.toNat_ofNat, Nat.mod_eq_of_lt]
      exact Nat.lt_trans (byte_lt n) (by decide)
    have hlow : Digits.value 256 (byte chars) 0 n < 2 ^ (n * 8) := by
      rw [Nat.mul_comm, Nat.pow_mul]
      exact Digits.value_lt fun i _ => byte_lt (0 + i)
    have hsum := toNat_or_shiftLeft (a := shortRead chars n) (b := .ofNat 64 (byte chars n))
      (k := n * 8) (m := 8) (by rw [ih (by omega)]; exact hlow)
      (by rw [hbyte]; exact byte_lt n) (by omega)
    rw [shortRead, hsum, ih (by omega), hbyte, Digits.value_succ, Nat.zero_add, Nat.mul_comm n 8,
      Nat.pow_mul, Nat.mul_comm (byte chars n)]

theorem take_run {bytes : Bytes} {c : SimpleBitstreamCursor} {pos : Nat}
    (hw : c.CurWord.toNat = bitsAt bytes pos c.BitsInCurWord) (h64 : c.BitsInCurWord ≤ 64)
    (hn : n ≤ c.BitsInCurWord) :
    ∃ w, take n c = .ok (.ofNat 64 (bitsAt bytes pos n),
        { c with CurWord := w, BitsInCurWord := c.BitsInCurWord - n }) ∧
      (1 ≤ n → c.BitsInCurWord - n ≠ 0 →
        w.toNat = bitsAt bytes (pos + n) (c.BitsInCurWord - n)) := by
  refine ⟨c.CurWord >>> (n &&& 0x3f), ?_, ?_⟩
  · have hlow : c.CurWord &&& (BitVec.allOnes 64 >>> (64 - n)) = .ofNat 64 (bitsAt bytes pos n) := by
      apply BitVec.eq_of_toNat_eq
      have hlt : bitsAt bytes pos n < 2 ^ 64 :=
        Nat.lt_of_lt_of_le (bitsAt_lt pos n) (Nat.pow_le_pow_right (by decide) (by omega))
      rw [toNat_low_bits _ (by omega), hw, bitsAt_mod pos hn, BitVec.toNat_ofNat,
        Nat.mod_eq_of_lt hlt]
    rw [take, hlow]
  · intro _ hleft
    rw [toNat_drop_bits _ (by omega), hw, bitsAt_div pos hn]

theorem load_run {c : SimpleBitstreamCursor} {k : Nat} {word : Bytes → BitVec 64}
    (hk : c.NextChar + k ≤ c.BitcodeBytes.length)
    (hword : ∀ chars, (word chars).toNat = Digits.value 256 (byte chars) 0 k) :
    ∃ w, load c k word = .ok ((), { c with
        CurWord := w, NextChar := c.NextChar + k, BitsInCurWord := k * 8 }) ∧
      w.toNat = bitsAt c.BitcodeBytes (8 * c.NextChar) (k * 8) := by
  refine ⟨word ((c.BitcodeBytes.drop c.NextChar).take k), ?_, ?_⟩
  · rw [load, slice_of_le hk]
  · rw [hword, Nat.mul_comm k 8, bitsAt_bytes]
    exact Digits.value_congr fun i hi => by rw [byte_slice (by omega), Nat.zero_add]

/-- The bytes the next fill reads. -/
def fillSize (c : SimpleBitstreamCursor) : Nat := min 8 (c.BitcodeBytes.length - c.NextChar)

theorem fillCurWord_run {c : SimpleBitstreamCursor} (h : c.NextChar < c.BitcodeBytes.length) :
    ∃ w, fillCurWord c = .ok ((), { c with
        CurWord := w, NextChar := c.NextChar + c.fillSize, BitsInCurWord := c.fillSize * 8 }) ∧
      w.toNat = bitsAt c.BitcodeBytes (8 * c.NextChar) (c.fillSize * 8) := by
  rw [fillCurWord, if_neg (by omega)]
  split
  · next hfull =>
    have hk : c.fillSize = 8 := by
      rw [fillSize]
      omega
    rw [hk]
    exact load_run hfull toNat_endianRead
  · next hshort =>
    have hk : c.fillSize = c.BitcodeBytes.length - c.NextChar := by
      rw [fillSize]
      omega
    rw [hk]
    exact load_run (by omega) fun chars => toNat_shortRead chars (by omega)

theorem Read_of_le {c : SimpleBitstreamCursor} (hn : 1 ≤ n ∧ n ≤ 64) (hle : n ≤ c.BitsInCurWord) :
    Read n c = take n c := by
  rw [Read, Call.assert_of hn, pure_bind, Call.bind_of_ok (Call.get_run c), if_pos hle]

theorem Read_at_end {c : SimpleBitstreamCursor} (hn : 1 ≤ n ∧ n ≤ 64) (hlt : c.BitsInCurWord < n)
    (h : c.BitcodeBytes.length ≤ c.NextChar) :
    Read n c = .error ⟨.io_error, "Unexpected end of file reading %u of %u bytes",
      [c.NextChar, c.BitcodeBytes.length]⟩ := by
  rw [Read, Call.assert_of hn, pure_bind, Call.bind_of_ok (Call.get_run c), if_neg (by omega)]
  refine Call.bind_of_error ?_
  rw [fillCurWord, if_pos h]

theorem Read_past_end {c : SimpleBitstreamCursor} (hn : 1 ≤ n ∧ n ≤ 64)
    (hlt : c.BitsInCurWord < n) (h : c.NextChar < c.BitcodeBytes.length)
    (hend : c.BitsInCurWord + c.fillSize * 8 < n) :
    Read n c = .error ⟨.io_error, "Unexpected end of file reading %u of %u bits",
      [c.fillSize * 8, n - c.BitsInCurWord]⟩ := by
  obtain ⟨w, hfill, -⟩ := fillCurWord_run h
  rw [Read, Call.assert_of hn, pure_bind, Call.bind_of_ok (Call.get_run c), if_neg (by omega),
    Call.bind_of_ok hfill, Call.bind_of_ok (Call.get_run _)]
  simp only
  rw [if_pos (by omega), Call.fail_run]

theorem Read_across {c : SimpleBitstreamCursor} (hn : 1 ≤ n ∧ n ≤ 64) (hlt : c.BitsInCurWord < n)
    (h : c.NextChar < c.BitcodeBytes.length) (hend : n ≤ c.BitsInCurWord + c.fillSize * 8) :
    ∃ w, Read n c = .ok
        ((if c.BitsInCurWord ≠ 0 then c.CurWord else 0) |||
          BitVec.ofNat 64 (bitsAt c.BitcodeBytes (8 * c.NextChar) (n - c.BitsInCurWord)) <<<
            c.BitsInCurWord,
        { c with
          CurWord := w
          NextChar := c.NextChar + c.fillSize
          BitsInCurWord := c.BitsInCurWord + c.fillSize * 8 - n }) ∧
      (c.BitsInCurWord + c.fillSize * 8 - n ≠ 0 → w.toNat = bitsAt c.BitcodeBytes
        (8 * c.NextChar + (n - c.BitsInCurWord)) (c.BitsInCurWord + c.fillSize * 8 - n)) := by
  obtain ⟨w, hfill, hw⟩ := fillCurWord_run h
  have hsize : c.fillSize ≤ 8 := Nat.min_le_left _ _
  obtain ⟨w', htake, hw'⟩ := take_run (c := { c with
      CurWord := w, NextChar := c.NextChar + c.fillSize, BitsInCurWord := c.fillSize * 8 })
    (n := n - c.BitsInCurWord) hw (by simp only; omega) (by simp only; omega)
  have hleft : c.fillSize * 8 - (n - c.BitsInCurWord) = c.BitsInCurWord + c.fillSize * 8 - n := by
    omega
  have hshift : n - (n - c.BitsInCurWord) = c.BitsInCurWord := by omega
  simp only [hleft] at htake hw'
  refine ⟨w', ?_, hw' (by omega)⟩
  rw [Read, Call.assert_of hn, pure_bind, Call.bind_of_ok (Call.get_run c), if_neg (by omega),
    Call.bind_of_ok hfill, Call.bind_of_ok (Call.get_run _)]
  simp only
  rw [if_neg (by omega), Call.bind_of_ok htake, Call.pure_run, hshift]

theorem JumpToBit_run {c : SimpleBitstreamCursor} (h : c.canSkipToPos (b / 8 / 8 * 8)) :
    JumpToBit b c = (if b % 64 ≠ 0 then (do
        let _ ← Read (b % 64)
        pure ()) else pure () : Run Unit)
      { c with NextChar := b / 8 / 8 * 8, BitsInCurWord := 0 } := by
  rw [JumpToBit, Call.bind_of_ok (Call.get_run c), Call.assert_of h, pure_bind,
    Call.bind_of_ok (Call.set_run _ _)]

/-! ## A cursor at a position -/

/-- The cursor stands at a bit of the string: the bytes up to the end of its word are taken, and
the current word holds the bits that are left of it. -/
structure At (c : SimpleBitstreamCursor) (bytes : Bytes) (pos : Nat) : Prop where
  bytes_eq : c.BitcodeBytes = bytes
  pos_le : pos ≤ size bytes
  next : c.NextChar = min ((pos + 63) / 64 * 8) bytes.length
  bits : c.BitsInCurWord + pos = 8 * c.NextChar
  word : c.BitsInCurWord ≠ 0 → c.CurWord.toNat = bitsAt bytes pos c.BitsInCurWord

namespace At

variable {c : SimpleBitstreamCursor} {bytes : Bytes} {pos : Nat}

theorem fresh (bytes : Bytes) : At ⟨bytes, 0, 0, 0⟩ bytes 0 where
  bytes_eq := rfl
  pos_le := Nat.zero_le _
  next := by simp
  bits := rfl
  word := fun h => absurd rfl h

theorem bitNo (h : At c bytes pos) : c.GetCurrentBitNo = pos := by
  have hbits := h.bits
  rw [GetCurrentBitNo]
  omega

theorem bits_lt (h : At c bytes pos) : c.BitsInCurWord < 64 := by
  have hbits := h.bits
  have hnext := h.next
  omega

theorem fillSize_eq (h : At c bytes pos) :
    c.fillSize = min 8 (bytes.length - c.NextChar) := by
  rw [fillSize, h.bytes_eq]

theorem read (h : At c bytes pos) (hn : 1 ≤ n ∧ n ≤ 64) (hle : pos + n ≤ size bytes) :
    ∃ c', Read n c = .ok (.ofNat 64 (bitsAt bytes pos n), c') ∧ At c' bytes (pos + n) := by
  have hbits := h.bits
  have hnext := h.next
  have hlt := h.bits_lt
  rw [size] at hle
  by_cases hin : n ≤ c.BitsInCurWord
  · obtain ⟨w, htake, hw⟩ := take_run (h.word (by omega)) hlt.le hin
    refine ⟨_, (Read_of_le hn hin).trans htake, h.bytes_eq, hle, ?_, ?_, fun hne => hw hn.1 hne⟩
    · simp only
      omega
    · simp only
      omega
  · have hfill := h.fillSize_eq
    have hlen := congrArg List.length h.bytes_eq
    have hmore : c.NextChar < c.BitcodeBytes.length := by omega
    obtain ⟨w, hread, hw⟩ := Read_across hn (by omega) hmore (by omega)
    have hnew : 8 * c.NextChar + (n - c.BitsInCurWord) = pos + n := by omega
    rw [h.bytes_eq] at hw hread
    rw [hnew] at hw
    have hlow : (if c.BitsInCurWord ≠ 0 then c.CurWord else 0).toNat =
        bitsAt bytes pos c.BitsInCurWord := by
      split
      · next hne => exact h.word hne
      · next hz =>
        rw [not_not.mp hz]
        rfl
    have hhigh : (BitVec.ofNat 64
        (bitsAt bytes (8 * c.NextChar) (n - c.BitsInCurWord))).toNat =
          bitsAt bytes (pos + c.BitsInCurWord) (n - c.BitsInCurWord) := by
      rw [← hbits, Nat.add_comm pos, BitVec.toNat_ofNat, Nat.mod_eq_of_lt]
      exact Nat.lt_of_lt_of_le (bitsAt_lt _ _) (Nat.pow_le_pow_right (by decide) (by omega))
    have hvalue : (if c.BitsInCurWord ≠ 0 then c.CurWord else 0) |||
        BitVec.ofNat 64 (bitsAt bytes (8 * c.NextChar) (n - c.BitsInCurWord)) <<<
          c.BitsInCurWord = .ofNat 64 (bitsAt bytes pos n) := by
      apply BitVec.eq_of_toNat_eq
      have hsplit : bitsAt bytes pos (c.BitsInCurWord + (n - c.BitsInCurWord)) = _ :=
        bitsAt_add pos _ _
      rw [toNat_or_shiftLeft (m := n - c.BitsInCurWord) (by rw [hlow]; exact bitsAt_lt _ _)
        (by rw [hhigh]; exact bitsAt_lt _ _) (by omega), hlow, hhigh, ← hsplit,
        Nat.add_sub_cancel' (by omega), BitVec.toNat_ofNat, Nat.mod_eq_of_lt]
      exact Nat.lt_of_lt_of_le (bitsAt_lt _ _) (Nat.pow_le_pow_right (by decide) hn.2)
    rw [hvalue] at hread
    refine ⟨_, hread, rfl, hle, ?_, ?_, hw⟩
    · simp only
      omega
    · simp only
      omega

theorem read_error (h : At c bytes pos) (hn : 1 ≤ n ∧ n ≤ 64) (hgt : size bytes < pos + n) :
    ∃ e, Read n c = .error e ∧ e.code = .io_error := by
  have hbits := h.bits
  have hnext := h.next
  rw [size] at hgt
  by_cases hmore : c.NextChar < c.BitcodeBytes.length
  · have hfill := h.fillSize_eq
    exact ⟨_, Read_past_end hn (by omega) hmore (by omega), rfl⟩
  · exact ⟨_, Read_at_end hn (by omega) (by omega), rfl⟩

theorem word_start (h : At c bytes pos) (hb : b / 64 * 8 ≤ bytes.length) :
    At { c with NextChar := b / 8 / 8 * 8, BitsInCurWord := 0 } bytes (b / 64 * 64) := by
  refine ⟨h.bytes_eq, ?_, ?_, ?_, fun hne => absurd rfl hne⟩
  · rw [size]
    omega
  · simp only
    omega
  · simp only
    omega

theorem canSkip (h : At c bytes pos) (hb : b / 64 * 8 ≤ bytes.length) :
    c.canSkipToPos (b / 8 / 8 * 8) := by
  rw [canSkipToPos, h.bytes_eq]
  omega

theorem jump (h : At c bytes pos) (hb : b ≤ size bytes) :
    ∃ c', JumpToBit b c = .ok ((), c') ∧ At c' bytes b := by
  rw [size] at hb
  have hword := h.word_start (b := b) (by omega)
  rw [JumpToBit_run (h.canSkip (by omega))]
  split
  · next hne =>
    obtain ⟨c', hread, hc'⟩ := hword.read (n := b % 64) (by omega) (by rw [size]; omega)
    refine ⟨c', Call.bind_of_ok hread, ?_⟩
    rwa [show b / 64 * 64 + b % 64 = b from by omega] at hc'
  · next hz =>
    refine ⟨_, rfl, ?_⟩
    rwa [show b / 64 * 64 = b from by omega] at hword

theorem jump_error (h : At c bytes pos) (hb : size bytes < b) (hlegal : b / 64 * 8 ≤ bytes.length) :
    ∃ e, JumpToBit b c = .error e ∧ e.code = .io_error := by
  rw [size] at hb
  have hword := h.word_start hlegal
  rw [JumpToBit_run (h.canSkip hlegal), if_pos (by omega)]
  obtain ⟨e, hread, he⟩ := hword.read_error (n := b % 64) (by omega) (by rw [size]; omega)
  exact ⟨e, Call.bind_of_error hread, he⟩

theorem of_jump (h : At c bytes pos) {c' : SimpleBitstreamCursor}
    (hjump : JumpToBit b c = .ok ((), c')) : b ≤ size bytes ∧ At c' bytes b := by
  by_cases hb : b ≤ size bytes
  · obtain ⟨c'', hrun, hc'⟩ := h.jump hb
    rw [hrun] at hjump
    cases hjump
    exact ⟨hb, hc'⟩
  · by_cases hlegal : b / 64 * 8 ≤ bytes.length
    · obtain ⟨e, hrun, -⟩ := h.jump_error (Nat.lt_of_not_le hb) hlegal
      rw [hrun] at hjump
      cases hjump
    · have hskip : ¬c.canSkipToPos (b / 8 / 8 * 8) := by
        rw [canSkipToPos, h.bytes_eq]
        omega
      rw [JumpToBit, Call.bind_of_ok (Call.get_run c)] at hjump
      obtain ⟨_, _, hassert, -⟩ := Call.bind_eq_ok.mp hjump
      exact absurd (Call.assert_eq_ok.mp hassert).1 hskip

theorem of_read (h : At c bytes pos) (hn : 1 ≤ n ∧ n ≤ 64) {v : BitVec 64}
    {c' : SimpleBitstreamCursor} (hread : Read n c = .ok (v, c')) :
    pos + n ≤ size bytes ∧ At c' bytes (pos + n) := by
  by_cases hle : pos + n ≤ size bytes
  · obtain ⟨c'', hrun, hc'⟩ := h.read hn hle
    rw [hrun] at hread
    cases hread
    exact ⟨hle, hc'⟩
  · obtain ⟨e, hrun, -⟩ := h.read_error hn (Nat.lt_of_not_le hle)
    rw [hrun] at hread
    cases hread

end At

/-- Where `SkipToFourByteBoundary` goes: half a word or a whole word back from the end of the
bytes taken. -/
def skipTarget (bytes : Bytes) (pos : Nat) : Nat :=
  let stop := 8 * min ((pos + 63) / 64 * 8) bytes.length
  if pos + 32 ≤ stop then stop - 32 else stop

theorem At.skip {c : SimpleBitstreamCursor} {bytes : Bytes} {pos : Nat} (h : At c bytes pos) :
    ∃ c', SkipToFourByteBoundary c = .ok ((), c') ∧ At c' bytes (skipTarget bytes pos) := by
  have hbits := h.bits
  have hnext := h.next
  have hle := h.pos_le
  refine ⟨_, rfl, ?_⟩
  rw [skipTarget, ← hnext]
  simp only
  by_cases hhalf : 32 ≤ c.BitsInCurWord
  · rw [if_pos hhalf, if_pos (by omega)]
    refine ⟨h.bytes_eq, ?_, ?_, ?_, ?_⟩
    · rw [size]
      omega
    · simp only
      omega
    · simp only
      omega
    · intro _
      simp only
      rw [BitVec.toNat_ushiftRight, Nat.shiftRight_eq_div_pow, h.word (by omega),
        bitsAt_div pos (by omega)]
      congr 1 <;> omega
  · rw [if_neg hhalf, if_neg (by omega)]
    refine ⟨h.bytes_eq, ?_, ?_, ?_, fun hne => absurd rfl hne⟩
    · rw [size]
      omega
    · simp only
      omega
    · simp only
      omega

end SimpleBitstreamCursor

end SmlnjLlvm.Bitstream
