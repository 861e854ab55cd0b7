import SmlnjLlvm.Library.Outcome
import SmlnjLlvm.Library.Utf8

/-!
# Strings of the JSON parser

The parser reads the bytes of a string literal after its first quote. An escape
of a UTF-16 code unit may be half of a pair, so the loop that reads such escapes
looks at the next one.
-/

namespace SmlnjLlvm.Json

/-! ## The parser -/

/-- The message of `parseError`, and the input that is left at `P`. -/
structure SyntaxError where
  message : String
  rest : List UInt8
  deriving DecidableEq, Repr

abbrev Parse (α : Type) := Outcome SyntaxError α

def next : List UInt8 → UInt8 × List UInt8
  | [] => (0, [])
  | b :: P => (b, P)

def isxdigit (C : UInt8) : Bool :=
  (0x30 ≤ C && C ≤ 0x39) || (0x41 ≤ C && C ≤ 0x46) || (0x61 ≤ C && C ≤ 0x66)

def hexValue (C : UInt8) : UInt16 :=
  if C > 0x39 then ((C &&& ~~~0x20) - 0x41 + 10).toUInt16 else (C - 0x30).toUInt16

def parse4Hex (P : List UInt8) : Parse (UInt16 × List UInt8) :=
  let (b₀, P) := next P
  let (b₁, P) := next P
  let (b₂, P) := next P
  let (b₃, P) := next P
  if isxdigit b₀ && isxdigit b₁ && isxdigit b₂ && isxdigit b₃ then
    .ok ([b₀, b₁, b₂, b₃].foldl (fun Out C => Out <<< 4 ||| hexValue C) 0, P)
  else .error ⟨"Invalid \\u escape sequence", P⟩

def encodeUtf8 (Rune : UInt32) (Out : List UInt8) : Parse (List UInt8) :=
  if Rune < 0x80 then .ok (Out ++ [(Rune &&& 0x7F).toUInt8])
  else if Rune < 0x800 then
    let FirstByte := ((0xC0 : UInt32) ||| (Rune &&& 0x7C0) >>> 6).toUInt8
    let SecondByte := ((0x80 : UInt32) ||| Rune &&& 0x3F).toUInt8
    .ok (Out ++ [FirstByte, SecondByte])
  else if Rune < 0x10000 then
    let FirstByte := ((0xE0 : UInt32) ||| (Rune &&& 0xF000) >>> 12).toUInt8
    let SecondByte := ((0x80 : UInt32) ||| (Rune &&& 0xFC0) >>> 6).toUInt8
    let ThirdByte := ((0x80 : UInt32) ||| Rune &&& 0x3F).toUInt8
    .ok (Out ++ [FirstByte, SecondByte, ThirdByte])
  else if Rune < 0x110000 then
    let FirstByte := ((0xF0 : UInt32) ||| (Rune &&& 0x1F0000) >>> 18).toUInt8
    let SecondByte := ((0x80 : UInt32) ||| (Rune &&& 0x3F000) >>> 12).toUInt8
    let ThirdByte := ((0x80 : UInt32) ||| (Rune &&& 0xFC0) >>> 6).toUInt8
    let FourthByte := ((0x80 : UInt32) ||| Rune &&& 0x3F).toUInt8
    .ok (Out ++ [FirstByte, SecondByte, ThirdByte, FourthByte])
  else .stuck

def invalid (Out : List UInt8) : List UInt8 := Out ++ [0xEF, 0xBF, 0xBD]

theorem next_length (P : List UInt8) : (next P).2.length ≤ P.length := by
  cases P <;> simp [next]

theorem parse4Hex_length {P P' : List UInt8} {Unit : UInt16} (h : parse4Hex P = .ok (Unit, P')) :
    P'.length ≤ P.length := by
  unfold parse4Hex at h
  dsimp only at h
  split at h
  · cases h
    have h₀ := next_length P
    have h₁ := next_length (next P).2
    have h₂ := next_length (next (next P).2).2
    have h₃ := next_length (next (next (next P).2).2).2
    omega
  · cases h

def parseUnits (First : UInt16) (Out P : List UInt8) : Parse (List UInt8 × List UInt8) :=
  -- Case 1: the UTF-16 code unit is already a codepoint in the BMP.
  if First < 0xD800 || First ≥ 0xE000 then
    match encodeUtf8 First.toUInt32 Out with
    | .ok Out => .ok (Out, P)
    | .error e => .error e
    | .stuck => .stuck
  -- Case 2: it's an (unpaired) trailing surrogate.
  else if First ≥ 0xDC00 then .ok (invalid Out, P)
  -- Case 3: it's a leading surrogate. We expect a trailing one next.
  else
    match P with
    | 0x5C :: 0x75 :: P =>
      match _ : parse4Hex P with
      | .ok (Second, P') =>
        -- Case 3b: there was another \u escape, but it wasn't a trailing surrogate.
        if Second < 0xDC00 || Second ≥ 0xE000 then parseUnits Second (invalid Out) P'
        -- Case 3c: a valid surrogate pair encoding an astral codepoint.
        else
          match encodeUtf8 ((0x10000 : UInt32) ||| (First.toUInt32 - 0xD800) <<< 10 |||
              (Second.toUInt32 - 0xDC00)) Out with
          | .ok Out => .ok (Out, P')
          | .error e => .error e
          | .stuck => .stuck
      | .error e => .error e
      | .stuck => .stuck
    -- Case 3a: there's no trailing \u escape. Don't advance in the stream.
    | P => .ok (invalid Out, P)
termination_by P.length
decreasing_by
  rename_i hread _
  have hle := parse4Hex_length hread
  simp only [List.length_cons]
  omega

def parseUnicode (Out P : List UInt8) : Parse (List UInt8 × List UInt8) := do
  let (First, P) ← parse4Hex P
  parseUnits First Out P

theorem parseUnits_length (First : UInt16) (Out P : List UInt8) {Out' P' : List UInt8}
    (h : parseUnits First Out P = .ok (Out', P')) : P'.length ≤ P.length := by
  fun_induction parseUnits First Out P with
  | case1 => cases h; exact Nat.le_refl _
  | case2 => cases h
  | case3 => cases h
  | case4 => cases h; exact Nat.le_refl _
  | case5 First Out _ _ P Second P'' hread _ ih =>
    have hle := parse4Hex_length hread
    have hle' := ih h
    simp only [List.length_cons]
    omega
  | case6 First Out _ _ P Second P'' hread =>
    cases h
    have hle := parse4Hex_length hread
    simp only [List.length_cons]
    omega
  | case7 => cases h
  | case8 => cases h
  | case9 => cases h
  | case10 => cases h
  | case11 => cases h; exact Nat.le_refl _

theorem parseUnicode_length {Out P Out' P' : List UInt8}
    (h : parseUnicode Out P = .ok (Out', P')) : P'.length ≤ P.length := by
  unfold parseUnicode at h
  cases hread : parse4Hex P with
  | error e =>
    rw [hread] at h
    cases h
  | stuck =>
    rw [hread] at h
    cases h
  | ok r =>
    rw [hread] at h
    exact Nat.le_trans (parseUnits_length _ _ _ h) (parse4Hex_length hread)

def parseString (Out P : List UInt8) : Parse (List UInt8 × List UInt8) :=
  match P with
  | [] => .error ⟨"Unterminated string", []⟩
  | C :: P =>
    if C = 0x22 then .ok (Out, P)
    else if P.isEmpty then .error ⟨"Unterminated string", P⟩
    else if C &&& 0x1F = C then .error ⟨"Control character in string", P⟩
    else if C ≠ 0x5C then parseString (Out ++ [C]) P
    else
      match P with
      | 0x22 :: P => parseString (Out ++ [0x22]) P
      | 0x5C :: P => parseString (Out ++ [0x5C]) P
      | 0x2F :: P => parseString (Out ++ [0x2F]) P
      | 0x62 :: P => parseString (Out ++ [0x08]) P
      | 0x66 :: P => parseString (Out ++ [0x0C]) P
      | 0x6E :: P => parseString (Out ++ [0x0A]) P
      | 0x72 :: P => parseString (Out ++ [0x0D]) P
      | 0x74 :: P => parseString (Out ++ [0x09]) P
      | 0x75 :: P =>
        match _ : parseUnicode Out P with
        | .ok (Out, P') => parseString Out P'
        | .error e => .error e
        | .stuck => .stuck
      | P => .error ⟨"Invalid escape sequence", (next P).2⟩
termination_by P.length
decreasing_by
  all_goals try simp only [List.length_cons]
  · omega
  all_goals try omega
  rename_i hread
  have hle := parseUnicode_length hread
  omega

def resume (r : Parse (List UInt8 × List UInt8)) : Parse (List UInt8 × List UInt8) :=
  r.bind fun r => parseString r.1 r.2

theorem parseString_u (Out P : List UInt8) :
    parseString Out (0x5C :: 0x75 :: P) = resume (parseUnicode Out P) := by
  rw [parseString.eq_def]
  show (match _ : parseUnicode Out _ with
    | .ok (Out, P') => parseString Out P'
    | .error e => .error e
    | .stuck => .stuck) = _
  split
  · next h =>
    rw [h]
    rfl
  · next h =>
    rw [h]
    rfl
  · next h =>
    rw [h]
    rfl

structure HexDigit where
  byte : UInt8
  isxdigit : isxdigit byte = true

def HexDigit.value (d : HexDigit) : Nat :=
  if d.byte ≤ 0x39 then d.byte.toNat - 0x30
  else if d.byte ≤ 0x46 then d.byte.toNat - 0x41 + 10
  else d.byte.toNat - 0x61 + 10

/-- The characters that stand for themselves. -/
structure Unescaped where
  char : Char
  ne_quote : char.val ≠ 0x22
  ne_backslash : char.val ≠ 0x5C
  not_control : 0x20 ≤ char.val

inductive ShortEscape where
  | quote | backslash | slash | b | f | n | r | t
  deriving DecidableEq, Repr

def ShortEscape.letter : ShortEscape → UInt8
  | quote => 0x22
  | backslash => 0x5C
  | slash => 0x2F
  | b => 0x62
  | f => 0x66
  | n => 0x6E
  | r => 0x72
  | t => 0x74

def ShortEscape.char : ShortEscape → Char
  | quote => Char.ofNat 0x22
  | backslash => Char.ofNat 0x5C
  | slash => Char.ofNat 0x2F
  | b => Char.ofNat 0x08
  | f => Char.ofNat 0x0C
  | n => Char.ofNat 0x0A
  | r => Char.ofNat 0x0D
  | t => Char.ofNat 0x09

/-- The four digits of a UTF-16 code unit. -/
structure CodeUnit where
  (d₁ d₂ d₃ d₄ : HexDigit)

def CodeUnit.value (u : CodeUnit) : Nat :=
  ((u.d₁.value * 16 + u.d₂.value) * 16 + u.d₃.value) * 16 + u.d₄.value

inductive Element where
  | unescaped (c : Unescaped)
  | short (e : ShortEscape)
  | unicode (u : CodeUnit)

def Element.bytes : Element → List UInt8
  | unescaped c => String.utf8EncodeChar c.char
  | short e => [0x5C, e.letter]
  | unicode u => [0x5C, 0x75, u.d₁.byte, u.d₂.byte, u.d₃.byte, u.d₄.byte]

def bytes (es : List Element) : List UInt8 := es.flatMap Element.bytes

def CodeUnit.isHigh (u : CodeUnit) : Bool := 0xD800 ≤ u.value && u.value < 0xDC00

def CodeUnit.isLow (u : CodeUnit) : Bool := 0xDC00 ≤ u.value && u.value < 0xE000

def CodeUnit.alone (u : CodeUnit) : Char :=
  if u.isHigh || u.isLow then Char.ofNat 0xFFFD else Char.ofNat u.value

def decodeWith (pair : Nat → Nat → Nat) : List Element → List Char
  | [] => []
  | .unescaped c :: es => c.char :: decodeWith pair es
  | .short e :: es => e.char :: decodeWith pair es
  | .unicode u :: .unicode v :: es =>
    if u.isHigh && v.isLow then Char.ofNat (pair u.value v.value) :: decodeWith pair es
    else u.alone :: decodeWith pair (.unicode v :: es)
  | .unicode u :: es => u.alone :: decodeWith pair es

def supplementary (high low : Nat) : Nat := 0x10000 + (high - 0xD800) * 0x400 + (low - 0xDC00)

def denote (es : List Element) : List Char := decodeWith supplementary es

def surrogatePairs : List Element → List (Nat × Nat)
  | [] => []
  | .unicode u :: .unicode v :: es =>
    if u.isHigh && v.isLow then (u.value, v.value) :: surrogatePairs es
    else surrogatePairs (.unicode v :: es)
  | _ :: es => surrogatePairs es

end SmlnjLlvm.Json
