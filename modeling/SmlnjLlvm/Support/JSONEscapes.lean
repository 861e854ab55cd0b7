import SmlnjLlvm.Support.JSONStrings
import Mathlib.Algebra.Order.Ring.Nat

/-!
# What the escapes of a JSON string decode to

The parser reads every sequence of string elements and yields valid UTF-8. It is
the text that the elements denote just when no pair of surrogates loses a bit,
since the halves of a pair are joined by a disjunction and not by a sum.
-/

namespace SmlnjLlvm.Json

open Utf8

theorem masked_byte (v mask lead k : UInt32) : (lead ||| (v &&& mask) >>> k).toUInt8 =
    (v >>> k).toUInt8 &&& (mask >>> k).toUInt8 ||| lead.toUInt8 := by
  rw [UInt32.shiftRight_and, UInt32.toUInt8_or, UInt32.toUInt8_and, UInt8.or_comm]

theorem last_byte (v mask lead : UInt32) :
    (lead ||| v &&& mask).toUInt8 = v.toUInt8 &&& mask.toUInt8 ||| lead.toUInt8 := by
  rw [UInt32.toUInt8_or, UInt32.toUInt8_and, UInt8.or_comm]

theorem encodeUtf8_eq (c : Char) (Out : List UInt8) :
    encodeUtf8 c.val Out = .ok (Out ++ String.utf8EncodeChar c) := by
  have hlt : c.val.toNat < 0x110000 := by
    rcases c.valid with h | h
    · exact Nat.lt_trans h (by decide)
    · exact h.2
  rw [String.utf8EncodeChar_eq_utf8EncodeCharFast]
  unfold encodeUtf8 String.utf8EncodeCharFast
  generalize c.val = v at *
  simp only [UInt32.lt_iff_toNat_lt, UInt32.le_iff_toNat_le, UInt32.reduceToNat, masked_byte,
    last_byte]
  by_cases hone : v.toNat < 0x80
  · rw [if_pos hone, if_pos (show v.toNat ≤ 127 by omega)]
    have hmask : (v &&& 0x7F).toUInt8 = v.toUInt8 := by
      apply UInt8.toNat_inj.mp
      rw [UInt32.toNat_toUInt8, UInt32.toNat_toUInt8, UInt32.toNat_and,
        show (0x7F : UInt32).toNat = 2 ^ 7 - 1 from rfl, Nat.and_two_pow_sub_one_eq_mod,
        Nat.mod_eq_of_lt (b := 2 ^ 7) hone]
    rw [hmask]
  · rw [if_neg hone, if_neg (show ¬v.toNat ≤ 127 by omega)]
    by_cases htwo : v.toNat < 0x800
    · rw [if_pos htwo, if_pos (show v.toNat ≤ 2047 by omega)]
      rfl
    · rw [if_neg htwo, if_neg (show ¬v.toNat ≤ 2047 by omega)]
      by_cases hthree : v.toNat < 0x10000
      · rw [if_pos hthree, if_pos (show v.toNat ≤ 65535 by omega)]
        rfl
      · rw [if_neg hthree, if_neg (show ¬v.toNat ≤ 65535 by omega), if_pos hlt]
        rfl

theorem hexValue_eq (d : HexDigit) : (hexValue d.byte).toNat = d.value ∧ d.value < 16 := by
  obtain ⟨C, hC⟩ := d
  have hall : ∀ n : Fin 256, isxdigit (UInt8.ofFin n) = true →
      (hexValue (UInt8.ofFin n)).toNat =
        (if UInt8.ofFin n ≤ 0x39 then (UInt8.ofFin n).toNat - 0x30
          else if UInt8.ofFin n ≤ 0x46 then (UInt8.ofFin n).toNat - 0x41 + 10
          else (UInt8.ofFin n).toNat - 0x61 + 10) ∧
      (if UInt8.ofFin n ≤ 0x39 then (UInt8.ofFin n).toNat - 0x30
        else if UInt8.ofFin n ≤ 0x46 then (UInt8.ofFin n).toNat - 0x41 + 10
        else (UInt8.ofFin n).toNat - 0x61 + 10) < 16 := by decide +kernel
  exact hall C.toFin hC

theorem appendDigit_toNat (d : HexDigit) {Out : UInt16} (h : Out.toNat < 2 ^ 12) :
    (Out <<< 4 ||| hexValue d.byte).toNat = Out.toNat * 16 + d.value := by
  obtain ⟨hvalue, hlt⟩ := hexValue_eq d
  have hshift : (Out <<< 4).toNat = 2 ^ 4 * Out.toNat := by
    rw [UInt16.toNat_shiftLeft]
    simp only [UInt16.reduceToNat, Nat.reduceMod, Nat.shiftLeft_eq]
    omega
  rw [UInt16.toNat_or, hshift, hvalue, ← Nat.two_pow_add_eq_or_of_lt hlt]
  omega

theorem CodeUnit.value_lt (u : CodeUnit) : u.value < 2 ^ 16 := by
  have h₁ := (hexValue_eq u.d₁).2
  have h₂ := (hexValue_eq u.d₂).2
  have h₃ := (hexValue_eq u.d₃).2
  have h₄ := (hexValue_eq u.d₄).2
  unfold CodeUnit.value
  omega

def CodeUnit.unit (u : CodeUnit) : UInt16 := UInt16.ofNat u.value

theorem CodeUnit.toNat_unit (u : CodeUnit) : u.unit.toNat = u.value :=
  (UInt16.toNat_ofNat').trans (Nat.mod_eq_of_lt u.value_lt)

theorem parse4Hex_unit (u : CodeUnit) (P : List UInt8) :
    parse4Hex (u.d₁.byte :: u.d₂.byte :: u.d₃.byte :: u.d₄.byte :: P) = .ok (u.unit, P) := by
  have hdigits : (isxdigit u.d₁.byte && isxdigit u.d₂.byte && isxdigit u.d₃.byte &&
      isxdigit u.d₄.byte) = true := by
    rw [u.d₁.isxdigit, u.d₂.isxdigit, u.d₃.isxdigit, u.d₄.isxdigit]
    rfl
  have h₁ := (hexValue_eq u.d₁).2
  have h₂ := (hexValue_eq u.d₂).2
  have h₃ := (hexValue_eq u.d₃).2
  have hfirst := appendDigit_toNat u.d₁ (show (0 : UInt16).toNat < 2 ^ 12 by decide)
  have hzero : (0 : UInt16).toNat = 0 := rfl
  have hsecond := appendDigit_toNat u.d₂
    (show ((0 : UInt16) <<< 4 ||| hexValue u.d₁.byte).toNat < 2 ^ 12 by omega)
  have hthird := appendDigit_toNat u.d₃
    (show (((0 : UInt16) <<< 4 ||| hexValue u.d₁.byte) <<< 4 |||
      hexValue u.d₂.byte).toNat < 2 ^ 12 by omega)
  have hfourth := appendDigit_toNat u.d₄
    (show ((((0 : UInt16) <<< 4 ||| hexValue u.d₁.byte) <<< 4 |||
      hexValue u.d₂.byte) <<< 4 ||| hexValue u.d₃.byte).toNat < 2 ^ 12 by omega)
  unfold parse4Hex
  simp only [next, hdigits, if_true, List.foldl_cons, List.foldl_nil]
  congr 2
  apply UInt16.toNat_inj.mp
  rw [hfourth, hthird, hsecond, hfirst, hzero, u.toNat_unit, CodeUnit.value]
  omega

/-! ## Code units -/

/-- The code point that the parser gives a pair. -/
def joined (high low : Nat) : Nat := 0x10000 ||| (high - 0xD800) <<< 10 ||| (low - 0xDC00)

theorem toNat_ofNat_val {n : Nat} (h : n.isValidChar) : (Char.ofNat n).val.toNat = n := by
  unfold Char.ofNat
  rw [dif_pos h]
  rfl

theorem encodeUtf8_of_valid {Rune : UInt32} (h : Rune.toNat.isValidChar) (Out : List UInt8) :
    encodeUtf8 Rune Out = .ok (Out ++ String.utf8EncodeChar (Char.ofNat Rune.toNat)) := by
  rw [← encodeUtf8_eq]
  congr 1
  exact (UInt32.toNat_inj.mp (toNat_ofNat_val h)).symm

theorem invalid_eq (Out : List UInt8) :
    invalid Out = Out ++ String.utf8EncodeChar (Char.ofNat 0xFFFD) := by
  have hbytes : String.utf8EncodeChar (Char.ofNat 0xFFFD) = [0xEF, 0xBF, 0xBD] := by decide
  rw [hbytes]
  rfl

theorem joined_bounds {high low : Nat} (hhigh : high < 0xDC00) (hlow : low < 0xE000) :
    0x10000 ≤ joined high low ∧ joined high low < 2 ^ 20 := by
  have hshift : (high - 0xD800) <<< 10 < 2 ^ 20 := by
    rw [Nat.shiftLeft_eq]
    omega
  exact ⟨Nat.le_trans Nat.left_le_or Nat.left_le_or,
    Nat.or_lt_two_pow (Nat.or_lt_two_pow (by decide) hshift) (by omega)⟩

theorem toNat_joined {First Second : UInt16} (hF : 0xD800 ≤ First.toNat) (hF' : First.toNat < 0xDC00)
    (hS : 0xDC00 ≤ Second.toNat) :
    ((0x10000 : UInt32) ||| (First.toUInt32 - 0xD800) <<< 10 |||
      (Second.toUInt32 - 0xDC00)).toNat = joined First.toNat Second.toNat := by
  have hfirst : (First.toUInt32 - 0xD800).toNat = First.toNat - 0xD800 := by
    rw [UInt32.toNat_sub_of_le _ _ (by simpa [UInt32.le_iff_toNat_le] using hF), UInt16.toNat_toUInt32]
    rfl
  have hsecond : (Second.toUInt32 - 0xDC00).toNat = Second.toNat - 0xDC00 := by
    rw [UInt32.toNat_sub_of_le _ _ (by simpa [UInt32.le_iff_toNat_le] using hS), UInt16.toNat_toUInt32]
    rfl
  have hshift : ((First.toUInt32 - 0xD800) <<< 10).toNat = (First.toNat - 0xD800) <<< 10 := by
    rw [UInt32.toNat_shiftLeft, hfirst, show (10 : UInt32).toNat % 32 = 10 from rfl]
    apply Nat.mod_eq_of_lt
    rw [Nat.shiftLeft_eq]
    omega
  rw [UInt32.toNat_or, UInt32.toNat_or, hshift, hsecond]
  rfl

section CodeUnits

variable {u v : CodeUnit} (Out P : List UInt8)

theorem isHigh_iff : u.isHigh = true ↔ 0xD800 ≤ u.value ∧ u.value < 0xDC00 := by
  simp [CodeUnit.isHigh]

theorem isLow_iff : u.isLow = true ↔ 0xDC00 ≤ u.value ∧ u.value < 0xE000 := by
  simp [CodeUnit.isLow]

theorem alone_of_surrogate (h : u.isHigh = true ∨ u.isLow = true) :
    u.alone = Char.ofNat 0xFFFD := by
  rw [CodeUnit.alone, if_pos (Bool.or_eq_true_iff.mpr h)]

theorem outside_iff (u : CodeUnit) :
    (u.unit < 0xD800 || u.unit ≥ 0xE000) = true ↔ u.isHigh = false ∧ u.isLow = false := by
  rw [← Bool.not_eq_true, ← Bool.not_eq_true, isHigh_iff, isLow_iff, Bool.or_eq_true,
    decide_eq_true_iff, decide_eq_true_iff, ge_iff_le, UInt16.lt_iff_toNat_lt,
    UInt16.le_iff_toNat_le, u.toNat_unit, show (0xD800 : UInt16).toNat = 0xD800 from rfl,
    show (0xE000 : UInt16).toNat = 0xE000 from rfl]
  omega

theorem unit_ge_iff (u : CodeUnit) : u.unit ≥ 0xDC00 ↔ 0xDC00 ≤ u.value := by
  rw [ge_iff_le, UInt16.le_iff_toNat_le, u.toNat_unit, show (0xDC00 : UInt16).toNat = 0xDC00 from rfl]

theorem parseUnits_of_not_high (h : u.isHigh = false) :
    parseUnits u.unit Out P = .ok (Out ++ String.utf8EncodeChar u.alone, P) := by
  rw [parseUnits.eq_def]
  cases hlow : u.isLow with
  | false =>
    have hnat : u.unit.toUInt32.toNat = u.value :=
      (UInt16.toNat_toUInt32 u.unit).trans u.toNat_unit
    have hvalid : u.value.isValidChar := by
      have hlt := u.value_lt
      have hhigh' := isHigh_iff (u := u)
      have hlow' := isLow_iff (u := u)
      simp only [h, hlow, Bool.false_eq_true, false_iff] at hhigh' hlow'
      by_cases hsmall : u.value < 0xD800
      · exact Or.inl hsmall
      · exact Or.inr ⟨by omega, by omega⟩
    rw [if_pos ((outside_iff u).mpr ⟨h, hlow⟩), encodeUtf8_of_valid (hnat ▸ hvalid), hnat,
      CodeUnit.alone, h, hlow]
    rfl
  | true =>
    have hge := (isLow_iff.mp hlow).1
    rw [if_neg (by rw [outside_iff, hlow]; simp), if_pos ((unit_ge_iff u).mpr hge), invalid_eq,
      alone_of_surrogate (Or.inr hlow)]

variable (hu : u.isHigh = true)
include hu

theorem parseUnits_of_other (hP : ∀ P', P ≠ 0x5C :: 0x75 :: P') :
    parseUnits u.unit Out P = .ok (Out ++ String.utf8EncodeChar u.alone, P) := by
  have hlt := (isHigh_iff.mp hu).2
  rw [parseUnits.eq_def, if_neg (by rw [outside_iff, hu]; simp),
    if_neg (by rw [unit_ge_iff]; omega), invalid_eq, alone_of_surrogate (Or.inl hu)]
  split
  · next P' => exact absurd rfl (hP P')
  · rfl

theorem parseUnits_of_unicode : parseUnits u.unit Out
      (0x5C :: 0x75 :: v.d₁.byte :: v.d₂.byte :: v.d₃.byte :: v.d₄.byte :: P) =
    if v.isLow then .ok (Out ++ String.utf8EncodeChar (Char.ofNat (joined u.value v.value)), P)
    else parseUnits v.unit (Out ++ String.utf8EncodeChar u.alone) P := by
  obtain ⟨hge, hlt⟩ := isHigh_iff.mp hu
  have houtside : (v.unit < 0xDC00 || v.unit ≥ 0xE000) = !v.isLow := by
    rw [Bool.eq_iff_iff, Bool.not_eq_true', ← Bool.not_eq_true, isLow_iff, Bool.or_eq_true,
      decide_eq_true_iff, decide_eq_true_iff, ge_iff_le, UInt16.lt_iff_toNat_lt,
      UInt16.le_iff_toNat_le, v.toNat_unit, show (0xDC00 : UInt16).toNat = 0xDC00 from rfl,
      show (0xE000 : UInt16).toNat = 0xE000 from rfl]
    omega
  rw [parseUnits.eq_def, if_neg (by rw [outside_iff, hu]; simp),
    if_neg (by rw [unit_ge_iff]; omega), invalid_eq, ← alone_of_surrogate (Or.inl hu)]
  split
  · next hshape =>
    cases hshape
    split
    · next hread =>
      rw [parse4Hex_unit] at hread
      cases hread
      rw [houtside]
      cases hlow : v.isLow with
      | false => rfl
      | true =>
        obtain ⟨hge', hlt'⟩ := isLow_iff.mp hlow
        rw [← u.toNat_unit] at hge hlt
        have hnat := toNat_joined hge hlt (v.toNat_unit ▸ hge')
        rw [u.toNat_unit] at hlt
        rw [u.toNat_unit, v.toNat_unit] at hnat
        obtain ⟨hlow', hhigh'⟩ := joined_bounds hlt hlt'
        have hvalid : (joined u.value v.value).isValidChar := Or.inr ⟨by omega, by omega⟩
        rw [encodeUtf8_of_valid (hnat ▸ hvalid), hnat]
        rfl
    · next hread =>
      rw [parse4Hex_unit] at hread
      cases hread
    · next hread =>
      rw [parse4Hex_unit] at hread
      cases hread
  · next hshape => exact absurd rfl (hshape _)

end CodeUnits

theorem parseString_push {b : UInt8} (hquote : b ≠ 0x22) (hslash : b ≠ 0x5C) (hcontrol : 0x20 ≤ b)
    (Out : List UInt8) {P : List UInt8} (hP : P ≠ []) :
    parseString Out (b :: P) = parseString (Out ++ [b]) P := by
  have hmask : ¬b &&& 0x1F = b := by
    intro h
    have hnat := congrArg UInt8.toNat h
    rw [UInt8.toNat_and, show (0x1F : UInt8).toNat = 2 ^ 5 - 1 from rfl,
      Nat.and_two_pow_sub_one_eq_mod] at hnat
    have hge : 0x20 ≤ b.toNat := UInt8.le_iff_toNat_le.mp hcontrol
    omega
  rw [parseString.eq_def]
  simp only [hquote, hslash, hmask, if_false, ne_eq, not_false_iff, if_true]
  rw [if_neg (by simpa using hP)]

theorem parseString_append {bs : List UInt8}
    (h : ∀ b ∈ bs, b ≠ 0x22 ∧ b ≠ 0x5C ∧ 0x20 ≤ b) (Out : List UInt8) {P : List UInt8}
    (hP : P ≠ []) : parseString Out (bs ++ P) = parseString (Out ++ bs) P := by
  induction bs generalizing Out with
  | nil => rw [List.nil_append, List.append_nil]
  | cons b bs ih =>
    obtain ⟨hquote, hslash, hcontrol⟩ := h b List.mem_cons_self
    rw [List.cons_append, parseString_push hquote hslash hcontrol Out (by simp [hP]),
      ih fun b hb => h b (List.mem_cons_of_mem _ hb)]
    rw [List.append_assoc, List.singleton_append]

theorem unescaped_bytes (c : Unescaped) {b : UInt8} (hb : b ∈ String.utf8EncodeChar c.char) :
    b ≠ 0x22 ∧ b ≠ 0x5C ∧ 0x20 ≤ b := by
  have hquote := c.ne_quote
  have hslash := c.ne_backslash
  have hcontrol := UInt32.le_iff_toNat_le.mp c.not_control
  rw [ne_eq, ← UInt32.toNat_inj] at hquote hslash
  by_cases hsmall : b.toNat < 128
  · have hone := eq_singleton_of_mem hsmall hb
    have hval : b.toNat = c.char.val.toNat := by
      rcases encode_cases c.char with ⟨x, he, hx, -⟩ | ⟨x, y, he, -⟩ | ⟨x, y, z, he, -⟩ |
        ⟨x, y, z, w, he, -⟩
      · rw [hone] at he
        rw [(List.cons.inj he).1]
        exact hx
      all_goals simp [hone] at he
    refine ⟨?_, ?_, ?_⟩
    · rintro rfl
      exact hquote hval.symm
    · rintro rfl
      exact hslash hval.symm
    · rw [UInt8.le_iff_toNat_le, hval]
      exact hcontrol
  · refine ⟨?_, ?_, ?_⟩
    · rintro rfl
      exact hsmall (by decide)
    · rintro rfl
      exact hsmall (by decide)
    · rw [UInt8.le_iff_toNat_le]
      show 32 ≤ b.toNat
      omega

theorem parseString_unescaped (c : Unescaped) (Out : List UInt8) {P : List UInt8} (hP : P ≠ []) :
    parseString Out (String.utf8EncodeChar c.char ++ P) =
      parseString (Out ++ String.utf8EncodeChar c.char) P :=
  parseString_append (fun _ hb => unescaped_bytes c hb) Out hP

theorem parseString_short (e : ShortEscape) (Out P : List UInt8) :
    parseString Out (0x5C :: e.letter :: P) =
      parseString (Out ++ String.utf8EncodeChar e.char) P := by
  rw [parseString.eq_def]
  cases e <;> rfl

theorem parseString_unicode (u : CodeUnit) (Out P : List UInt8) :
    parseString Out
        (0x5C :: 0x75 :: u.d₁.byte :: u.d₂.byte :: u.d₃.byte :: u.d₄.byte :: P) =
      resume (parseUnits u.unit Out P) := by
  have hread : parseUnicode Out (u.d₁.byte :: u.d₂.byte :: u.d₃.byte :: u.d₄.byte :: P) =
      parseUnits u.unit Out P := by
    unfold parseUnicode
    rw [parse4Hex_unit]
    rfl
  rw [parseString_u, hread]

/-! ## Strings -/

section Strings

variable {pair : Nat → Nat → Nat} {u v : CodeUnit} {es : List Element}

theorem decodeWith_alone (h : ∀ v es', es = .unicode v :: es' → (u.isHigh && v.isLow) = false) :
    decodeWith pair (.unicode u :: es) = u.alone :: decodeWith pair es := by
  cases es with
  | nil => rfl
  | cons e es =>
    cases e with
    | unescaped c => rfl
    | short e => rfl
    | unicode v => rw [decodeWith, h v es rfl, if_neg Bool.false_ne_true]

theorem decodeWith_pair (hu : u.isHigh = true) (hv : v.isLow = true) :
    decodeWith pair (.unicode u :: .unicode v :: es) =
      Char.ofNat (pair u.value v.value) :: decodeWith pair es := by
  rw [decodeWith, hu, hv]
  rfl

theorem bytes_cons (e : Element) (es : List Element) : bytes (e :: es) = e.bytes ++ bytes es :=
  List.flatMap_cons

theorem unescaped_ne_escape (c : Unescaped) (P P' : List UInt8) :
    String.utf8EncodeChar c.char ++ P ≠ 0x5C :: P' := by
  intro h
  cases hbytes : String.utf8EncodeChar c.char with
  | nil => exact String.utf8EncodeChar_ne_nil hbytes
  | cons b bs =>
    rw [hbytes] at h
    have hb := (unescaped_bytes c (hbytes ▸ List.mem_cons_self)).2.1
    exact hb (List.cons.inj h).1

theorem ShortEscape.letter_ne (e : ShortEscape) : e.letter ≠ 0x75 := by
  cases e <;> decide

/--
The parser on a string, and on a string after a code unit was read. The second
part carries the induction through the surrogates.
-/
theorem parse_elements (rest : List UInt8) (es : List Element) :
    (∀ Out, parseString Out (bytes es ++ 0x22 :: rest) =
      .ok (Out ++ encode (decodeWith joined es), rest)) ∧
    ∀ u Out, resume (parseUnits u.unit Out (bytes es ++ 0x22 :: rest)) =
      .ok (Out ++ encode (decodeWith joined (.unicode u :: es)), rest) := by
  -- A code unit that is not in a pair, before elements that are parsed as they should.
  have halone : ∀ {es : List Element}, (∀ Out, parseString Out (bytes es ++ 0x22 :: rest) =
      .ok (Out ++ encode (decodeWith joined es), rest)) → ∀ (u : CodeUnit) Out,
        (∀ v es', es = .unicode v :: es' → (u.isHigh && v.isLow) = false) →
        resume (.ok (Out ++ String.utf8EncodeChar u.alone, bytes es ++ 0x22 :: rest)) =
          .ok (Out ++ encode (decodeWith joined (.unicode u :: es)), rest) := by
    intro es hes u Out h
    rw [decodeWith_alone h, encode_cons, ← List.append_assoc]
    exact hes _
  induction es with
  | nil =>
    have hstring : ∀ Out, parseString Out (bytes [] ++ 0x22 :: rest) =
        .ok (Out ++ encode (decodeWith joined []), rest) := by
      intro Out
      rw [show bytes [] ++ 0x22 :: rest = 0x22 :: rest from rfl, parseString.eq_def]
      show Outcome.ok (Out, rest) = .ok (Out ++ [], rest)
      rw [List.append_nil]
    refine ⟨hstring, fun u Out => ?_⟩
    have hunits : parseUnits u.unit Out (bytes [] ++ 0x22 :: rest) =
        .ok (Out ++ String.utf8EncodeChar u.alone, bytes [] ++ 0x22 :: rest) := by
      cases hu : u.isHigh with
      | false => exact parseUnits_of_not_high Out _ hu
      | true => exact parseUnits_of_other Out _ hu fun P' h => absurd (List.cons.inj h).1 (by decide)
    rw [hunits]
    exact halone hstring u Out fun v es' h => by cases h
  | cons e es ih =>
    have hne : bytes es ++ 0x22 :: rest ≠ [] := by simp
    have hstring : ∀ Out, parseString Out (bytes (e :: es) ++ 0x22 :: rest) =
        .ok (Out ++ encode (decodeWith joined (e :: es)), rest) := by
      intro Out
      rw [bytes_cons, List.append_assoc]
      cases e with
      | unescaped c =>
        rw [Element.bytes, parseString_unescaped c Out hne, ih.1, decodeWith, encode_cons,
          List.append_assoc]
      | short e =>
        rw [Element.bytes, List.cons_append, List.cons_append, List.nil_append,
          parseString_short, ih.1, decodeWith, encode_cons, List.append_assoc]
      | unicode u =>
        have hunicode := parseString_unicode u Out (bytes es ++ 0x22 :: rest)
        exact hunicode.trans (ih.2 u Out)
    refine ⟨hstring, fun u Out => ?_⟩
    cases hu : u.isHigh with
    | false =>
      rw [parseUnits_of_not_high Out _ hu]
      exact halone hstring u Out fun v es' _ => by rw [hu, Bool.false_and]
    | true =>
      cases e with
      | unescaped c =>
        rw [parseUnits_of_other Out _ hu fun P' => ?_]
        · exact halone hstring u Out fun v es' h => by cases h
        · rw [bytes_cons, List.append_assoc]
          exact unescaped_ne_escape c _ _
      | short e =>
        rw [parseUnits_of_other Out _ hu fun P' => ?_]
        · exact halone hstring u Out fun v es' h => by cases h
        · intro h
          exact e.letter_ne (List.cons.inj (List.cons.inj h).2).1
      | unicode v =>
        have hunits := parseUnits_of_unicode (v := v) Out (bytes es ++ 0x22 :: rest) hu
        rw [bytes_cons, List.append_assoc]
        refine (congrArg resume hunits).trans ?_
        cases hv : v.isLow with
        | false =>
          have hnot : ∀ v' es', Element.unicode v :: es = .unicode v' :: es' →
              (u.isHigh && v'.isLow) = false := by
            intro v' es' h
            cases h
            rw [hv, Bool.and_false]
          rw [if_neg Bool.false_ne_true, ih.2, decodeWith_alone hnot, encode_cons u.alone,
            List.append_assoc]
        | true =>
          rw [if_pos rfl, decodeWith_pair hu hv, encode_cons, ← List.append_assoc]
          exact ih.1 _

theorem char_ofNat_inj {m n : Nat} (hm : m.isValidChar) (hn : n.isValidChar) :
    Char.ofNat m = Char.ofNat n ↔ m = n := by
  refine ⟨fun h => ?_, fun h => h ▸ rfl⟩
  rw [← toNat_ofNat_val hm, ← toNat_ofNat_val hn, h]

theorem or_bit_six : ∀ h : Fin 1024, 64 ||| h.val = 64 + h.val ↔ h.val / 64 % 2 = 0 := by
  decide +kernel

theorem joined_eq_iff {high low : Nat} (hhigh : high < 0xDC00) (hlow : low < 0xE000) :
    joined high low = supplementary high low ↔ (high - 0xD800) / 64 % 2 = 0 := by
  obtain ⟨h, hh⟩ : ∃ h, high - 0xD800 = h := ⟨_, rfl⟩
  obtain ⟨l, hl⟩ : ∃ l, low - 0xDC00 = l := ⟨_, rfl⟩
  have hlast : l < 2 ^ 10 := by omega
  have hiff : 64 ||| h = 64 + h ↔ h / 64 % 2 = 0 := or_bit_six ⟨h, by omega⟩
  have hjoined : joined high low = 2 ^ 10 * (64 ||| h) + l := by
    rw [Nat.two_pow_add_eq_or_of_lt hlast, joined, hh, hl, Nat.mul_comm, ← Nat.shiftLeft_eq,
      Nat.shiftLeft_or_distrib, show 64 <<< 10 = 0x10000 from rfl]
  have hsum : supplementary high low = 2 ^ 10 * (64 + h) + l := by
    unfold supplementary
    omega
  rw [hjoined, hsum, hh, ← hiff]
  omega

theorem supplementary_valid {high low : Nat} (hhigh : high < 0xDC00) (hlow : low < 0xE000) :
    (supplementary high low).isValidChar := by
  unfold supplementary
  exact Or.inr ⟨by omega, by omega⟩

theorem decodeWith_eq_iff (es : List Element) : decodeWith joined es = denote es ↔
    ∀ p ∈ surrogatePairs es, (p.1 - 0xD800) / 64 % 2 = 0 := by
  unfold denote
  fun_induction surrogatePairs es with
  | case1 => simp [decodeWith]
  | case2 u v es hpair ih =>
    obtain ⟨hu, hv⟩ := Bool.and_eq_true_iff.mp hpair
    have hhigh := (isHigh_iff.mp hu).2
    have hlow := (isLow_iff.mp hv).2
    obtain ⟨hge, hlt⟩ := joined_bounds hhigh hlow
    rw [decodeWith_pair hu hv, decodeWith_pair hu hv, List.cons_eq_cons, ih,
      char_ofNat_inj (Or.inr ⟨by omega, by omega⟩) (supplementary_valid hhigh hlow),
      joined_eq_iff hhigh hlow]
    simp
  | case3 u v es hpair ih =>
    have hnot : ∀ v' es', Element.unicode v :: es = .unicode v' :: es' →
        (u.isHigh && v'.isLow) = false := by
      intro v' es' h
      cases h
      exact Bool.eq_false_iff.mpr hpair
    rw [decodeWith_alone hnot, decodeWith_alone hnot, List.cons_eq_cons, ih]
    simp
  | case4 e es hes ih =>
    cases e with
    | unescaped c => simpa [decodeWith] using ih
    | short e => simpa [decodeWith] using ih
    | unicode u =>
      have hnot : ∀ v es', es = .unicode v :: es' → (u.isHigh && v.isLow) = false :=
        fun v es' h => absurd h (hes u v es' rfl)
      rw [decodeWith_alone hnot, decodeWith_alone hnot, List.cons_eq_cons, ih]
      simp

/--
Every string is parsed to valid UTF-8, and to the text that its elements denote
just when all surrogate pairs are in planes of odd number.
-/
theorem parseString_denotes (es : List Element) (rest : List UInt8) :
    (∃ out, parseString [] (bytes es ++ 0x22 :: rest) = .ok (out, rest) ∧ Valid out) ∧
      (parseString [] (bytes es ++ 0x22 :: rest) = .ok (encode (denote es), rest) ↔
        ∀ p ∈ surrogatePairs es, (p.1 - 0xD800) / 64 % 2 = 0) := by
  have hrun := (parse_elements rest es).1 []
  rw [List.nil_append] at hrun
  refine ⟨⟨_, hrun, _, rfl⟩, ?_⟩
  rw [hrun, ← decodeWith_eq_iff]
  constructor
  · intro h
    exact encode_injective (Prod.mk.inj (Outcome.ok.inj h)).1
  · intro h
    rw [h]

end Strings

/-- U+20000 as a pair of escapes. -/
def planeTwo : List Element :=
  [.unicode ⟨⟨0x64, rfl⟩, ⟨0x38, rfl⟩, ⟨0x34, rfl⟩, ⟨0x30, rfl⟩⟩,
    .unicode ⟨⟨0x64, rfl⟩, ⟨0x63, rfl⟩, ⟨0x30, rfl⟩, ⟨0x30, rfl⟩⟩]

/-- The pair of U+20000 is parsed as U+10000. -/
theorem parseString_planeTwo :
    bytes planeTwo = [0x5C, 0x75, 0x64, 0x38, 0x34, 0x30, 0x5C, 0x75, 0x64, 0x63, 0x30, 0x30] ∧
      encode (denote planeTwo) = [0xF0, 0xA0, 0x80, 0x80] ∧
      parseString [] (bytes planeTwo ++ [0x22]) = .ok ([0xF0, 0x90, 0x80, 0x80], []) :=
  ⟨rfl, by decide, (parse_elements [] planeTwo).1 []⟩

end SmlnjLlvm.Json
