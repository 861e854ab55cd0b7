import SmlnjLlvm.Library.ByteDecoder
import Mathlib.Data.List.TakeWhile

/-!
# Base64

`encodeBase64` and `decodeBase64`, against the bits of RFC 4648: every character
stands for six bits, and the bits are read in groups of eight.
-/

namespace SmlnjLlvm.Base64

def Table : List UInt8 :=
  ['A', 'B', 'C', 'D', 'E', 'F', 'G', 'H', 'I', 'J', 'K', 'L', 'M', 'N', 'O', 'P',
    'Q', 'R', 'S', 'T', 'U', 'V', 'W', 'X', 'Y', 'Z', 'a', 'b', 'c', 'd', 'e', 'f',
    'g', 'h', 'i', 'j', 'k', 'l', 'm', 'n', 'o', 'p', 'q', 'r', 's', 't', 'u', 'v',
    'w', 'x', 'y', 'z', '0', '1', '2', '3', '4', '5', '6', '7', '8', '9', '+', '/'].map
    fun c => UInt8.ofNat c.toNat

def pad : UInt8 := 61

def char (x shift : Nat) : UInt8 := Table.getD ((x >>> shift) &&& 63) 0

def encodeBase64 : List UInt8 → List UInt8
  | a :: b :: c :: Bytes =>
    let x := a.toNat <<< 16 ||| b.toNat <<< 8 ||| c.toNat
    char x 18 :: char x 12 :: char x 6 :: char x 0 :: encodeBase64 Bytes
  | [a, b] =>
    let x := a.toNat <<< 16 ||| b.toNat <<< 8
    [char x 18, char x 12, char x 6, pad]
  | [a] =>
    let x := a.toNat <<< 16
    [char x 18, char x 12, pad, pad]
  | [] => []

def Inv : UInt8 := 64

def DecodeTable : List UInt8 :=
  List.replicate 40 Inv ++
  [Inv, Inv, Inv, 62, Inv, Inv, Inv, 63,
    52, 53, 54, 55, 56, 57, 58, 59,
    60, 61, Inv, Inv, Inv, 0, Inv, Inv,
    Inv, 0, 1, 2, 3, 4, 5, 6,
    7, 8, 9, 10, 11, 12, 13, 14,
    15, 16, 17, 18, 19, 20, 21, 22,
    23, 24, 25, Inv, Inv, Inv, Inv, Inv,
    Inv, 26, 27, 28, 29, 30, 31, 32,
    33, 34, 35, 36, 37, 38, 39, 40,
    41, 42, 43, 44, 45, 46, 47, 48,
    49, 50, 51]

def decodeBase64Byte (Ch : UInt8) : UInt8 := DecodeTable.getD Ch.toNat Inv

inductive Error where
  /-- Base64 encoded strings must be a multiple of 4 bytes in length. -/
  | length
  /-- Invalid Base64 character at an index. -/
  | character (Byte : UInt8) (ByteIdx : Nat)
  deriving DecidableEq, Repr

variable (Input : List UInt8)

def Illegal (ByteIdx : Nat) (Byte : UInt8) : Bool :=
  decodeBase64Byte Byte == Inv || (Byte == pad && (decide (ByteIdx < Input.length - 2) ||
    (ByteIdx == Input.length - 2 && Input.getD (ByteIdx + 1) 0 != pad)))

def hex64Byte (ByteIdx : Nat) (Byte : UInt8) : Except Error UInt8 :=
  if Illegal Input ByteIdx Byte then .error (.character Byte ByteIdx)
  else .ok (decodeBase64Byte Byte)

def outputBytes (h₀ h₁ h₂ h₃ : UInt8) : List UInt8 :=
  [(h₀ <<< 2) + ((h₁ >>> 4) &&& 0x03), (h₁ <<< 4) + ((h₂ >>> 2) &&& 0x0F),
    (h₂ <<< 6) + (h₃ &&& 0x3F)]

def decodeQuads : Nat → List UInt8 → Except Error (List UInt8)
  | Idx, b₀ :: b₁ :: b₂ :: b₃ :: rest => do
      let h₀ ← hex64Byte Input Idx b₀
      let h₁ ← hex64Byte Input (Idx + 1) b₁
      let h₂ ← hex64Byte Input (Idx + 2) b₂
      let h₃ ← hex64Byte Input (Idx + 3) b₃
      let Output ← decodeQuads (Idx + 4) rest
      return outputBytes h₀ h₁ h₂ h₃ ++ Output
  | _, _ => .ok []

def strip (Output : List UInt8) : List UInt8 :=
  if Input.getLast? = some pad then
    if Input.getD (Input.length - 2) 0 = pad then Output.dropLast.dropLast else Output.dropLast
  else Output

def decodeBase64 : Except Error (List UInt8) :=
  if Input.length = 0 then .ok []
  else if Input.length % 4 ≠ 0 then .error .length
  else do
    let Output ← decodeQuads Input 0 Input
    return strip Input Output

def sextet (v : Nat) : List Nat :=
  [v / 32 % 2, v / 16 % 2, v / 8 % 2, v / 4 % 2, v / 2 % 2, v % 2]

def octets : List Nat → List UInt8
  | a :: b :: c :: d :: e :: f :: g :: h :: bits =>
    UInt8.ofNat (128 * a + 64 * b + 32 * c + 16 * d + 8 * e + 4 * f + 2 * g + h) :: octets bits
  | _ => []

def digit (v : Nat) : UInt8 := Table.getD v 0

def denoted (digits : List Nat) : List UInt8 := octets (digits.flatMap sextet)

/-- Digits and at most two characters of padding, in groups of four. -/
structure Text (digits : List Nat) (padding : Nat) : Prop where
  lt : ∀ v ∈ digits, v < 64
  le : padding ≤ 2
  text : Input = digits.map digit ++ List.replicate padding pad
  groups : Input.length % 4 = 0

def value (b : UInt8) : Nat := (decodeBase64Byte b).toNat

variable {ByteIdx padding v : Nat} {digits : List Nat}

theorem value_digit (hv : v < 64) : value (digit v) = v ∧ digit v ≠ pad := by
  have hall : ∀ v < 64, value (digit v) = v ∧ digit v ≠ pad := by decide
  exact hall v hv

set_option maxRecDepth 4000 in
theorem value_lt {b : UInt8} (h : decodeBase64Byte b ≠ Inv) :
    value b < 64 ∧ (b ≠ pad → digit (value b) = b) := by
  have hall : ∀ n < 256, decodeBase64Byte (UInt8.ofNat n) ≠ Inv →
      value (UInt8.ofNat n) < 64 ∧
        (UInt8.ofNat n ≠ pad → digit (value (UInt8.ofNat n)) = UInt8.ofNat n) := by
    decide
  have hb := hall b.toNat b.toNat_lt
  rw [UInt8.ofNat_toNat] at hb
  exact hb h

theorem octets_length : ∀ bits : List Nat, (octets bits).length = bits.length / 8
  | a :: b :: c :: d :: e :: f :: g :: h :: bits => by
      rw [octets, List.length_cons, octets_length bits]
      simp only [List.length_cons]
      omega
  | [] | [_] | [_, _] | [_, _, _] | [_, _, _, _] | [_, _, _, _, _] | [_, _, _, _, _, _]
  | [_, _, _, _, _, _, _] => by simp [octets]

theorem octets_append (xs ys : List Nat) : octets xs <+: octets (xs ++ ys) := by
  fun_induction octets xs with
  | case1 a b c d e f g h bits ih => simpa [octets] using ih
  | case2 bits hshort => exact List.nil_prefix

theorem sextets_length (digits : List Nat) :
    (digits.flatMap sextet).length = 6 * digits.length := by
  induction digits with
  | nil => rfl
  | cons v digits ih =>
    simp only [List.flatMap_cons, List.length_append, ih, List.length_cons, sextet,
      List.length_nil]
    omega

theorem denoted_length (digits : List Nat) :
    (denoted digits).length = 6 * digits.length / 8 := by
  rw [denoted, octets_length, sextets_length]

theorem denoted_append (digits : List Nat) {k : Nat} (hk : k ≤ 2)
    (hgroups : (digits.length + k) % 4 = 0) :
    ∃ tail : List UInt8, tail.length = k ∧
      denoted (digits ++ List.replicate k 0) = denoted digits ++ tail := by
  obtain ⟨tail, htail⟩ :=
    octets_append (digits.flatMap sextet) ((List.replicate k 0).flatMap sextet)
  rw [← List.flatMap_append] at htail
  refine ⟨tail, ?_, htail.symm⟩
  have hlength := congrArg List.length htail
  change (denoted digits ++ tail).length = (denoted _).length at hlength
  rw [List.length_append, denoted_length, denoted_length, List.length_append,
    List.length_replicate] at hlength
  omega

section Groups

variable {a b c d : Nat}

theorem sextet_eq (hv : v < 64) :
    ∃ a b c d e f, sextet v = [a, b, c, d, e, f] ∧ a < 2 ∧ b < 2 ∧ c < 2 ∧ d < 2 ∧ e < 2 ∧ f < 2 ∧
      v = 32 * a + 16 * b + 8 * c + 4 * d + 2 * e + f := by
  refine ⟨_, _, _, _, _, _, rfl, ?_, ?_, ?_, ?_, ?_, ?_, ?_⟩ <;> omega

theorem denoted_cons (ha : a < 64) (hb : b < 64) (hc : c < 64) (hd : d < 64)
    (digits : List Nat) :
    denoted (a :: b :: c :: d :: digits) =
      UInt8.ofNat (4 * a + b / 16) :: UInt8.ofNat (16 * (b % 16) + c / 4) ::
        UInt8.ofNat (64 * (c % 4) + d) :: denoted digits := by
  obtain ⟨a₅, a₄, a₃, a₂, a₁, a₀, ha', _, _, _, _, _, _, rfl⟩ := sextet_eq ha
  obtain ⟨b₅, b₄, b₃, b₂, b₁, b₀, hb', _, _, _, _, _, _, rfl⟩ := sextet_eq hb
  obtain ⟨c₅, c₄, c₃, c₂, c₁, c₀, hc', _, _, _, _, _, _, rfl⟩ := sextet_eq hc
  obtain ⟨d₅, d₄, d₃, d₂, d₁, d₀, hd', _, _, _, _, _, _, rfl⟩ := sextet_eq hd
  simp only [denoted, List.flatMap_cons, ha', hb', hc', hd', List.cons_append, List.nil_append,
    octets, List.cons.injEq, and_true]
  exact ⟨congrArg _ (by omega), congrArg _ (by omega), congrArg _ (by omega)⟩

theorem outputBytes_eq {h₀ h₁ h₂ h₃ : UInt8} (ha : h₀.toNat < 64) (hb : h₁.toNat < 64)
    (hc : h₂.toNat < 64) (hd : h₃.toNat < 64) (digits : List Nat) :
    outputBytes h₀ h₁ h₂ h₃ ++ denoted digits =
      denoted (h₀.toNat :: h₁.toNat :: h₂.toNat :: h₃.toNat :: digits) := by
  have h3 : h₁.toNat / 16 &&& 3 = h₁.toNat / 16 % 4 := Nat.and_two_pow_sub_one_eq_mod _ 2
  have h15 : h₂.toNat / 4 &&& 15 = h₂.toNat / 4 % 16 := Nat.and_two_pow_sub_one_eq_mod _ 4
  have h63 : h₃.toNat &&& 63 = h₃.toNat % 64 := Nat.and_two_pow_sub_one_eq_mod _ 6
  rw [denoted_cons ha hb hc hd]
  simp only [outputBytes, List.cons_append, List.nil_append, List.cons.injEq, and_true,
    ← UInt8.toNat_inj, UInt8.toNat_add, UInt8.toNat_shiftLeft, UInt8.toNat_and,
    UInt8.toNat_shiftRight, UInt8.toNat_ofNat', UInt8.reduceToNat, Nat.reduceMod,
    Nat.shiftLeft_eq, Nat.shiftRight_eq_div_pow, Nat.reducePow, h3, h15, h63]
  omega

end Groups

theorem char_eq (x shift : Nat) : char x shift = digit (x / 2 ^ shift % 64) := by
  have hmask : x >>> shift &&& 63 = x / 2 ^ shift % 64 := by
    rw [Nat.shiftRight_eq_div_pow]
    exact Nat.and_two_pow_sub_one_eq_mod _ 6
  rw [char, hmask, digit]

theorem or_bytes (a b c : UInt8) :
    a.toNat <<< 16 ||| b.toNat <<< 8 ||| c.toNat = a.toNat * 65536 + b.toNat * 256 + c.toNat := by
  have hshift : a.toNat <<< 16 = (a.toNat <<< 8) <<< 8 := by rw [← Nat.shiftLeft_add]
  rw [hshift, ← Nat.shiftLeft_or_distrib, BigEndian.shift_or_byte, BigEndian.shift_or_byte]
  omega

def digitsOf (a b c : UInt8) : List Nat :=
  [a.toNat / 4, a.toNat % 4 * 16 + b.toNat / 16, b.toNat % 16 * 4 + c.toNat / 64, c.toNat % 64]

theorem digitsOf_lt (a b c : UInt8) : ∀ v ∈ digitsOf a b c, v < 64 := by
  have ha := a.toNat_lt
  have hb := b.toNat_lt
  have hc := c.toNat_lt
  simp only [digitsOf, List.forall_mem_cons]
  exact ⟨by omega, by omega, by omega, by omega, by simp⟩

theorem chars_eq (a b c : UInt8) :
    [18, 12, 6, 0].map (char (a.toNat <<< 16 ||| b.toNat <<< 8 ||| c.toNat)) =
      (digitsOf a b c).map digit := by
  have ha := a.toNat_lt
  have hb := b.toNat_lt
  have hc := c.toNat_lt
  simp only [or_bytes, char_eq, digitsOf, List.map_cons, List.map_nil, List.cons.injEq, and_true]
  exact ⟨congrArg _ (by omega), congrArg _ (by omega), congrArg _ (by omega), congrArg _ (by omega)⟩

theorem denoted_digitsOf (a b c : UInt8) (digits : List Nat) :
    denoted (digitsOf a b c ++ digits) = a :: b :: c :: denoted digits := by
  have ha := a.toNat_lt
  have hb := b.toNat_lt
  have hc := c.toNat_lt
  refine (denoted_cons (by omega) (by omega) (by omega) (by omega) digits).trans ?_
  simp only [List.cons.injEq, ← UInt8.toNat_inj, UInt8.toNat_ofNat', and_true]
  omega

theorem denoted_take {k : Nat} {a b c : UInt8} (hk : k ≤ 2)
    (h : digits ++ List.replicate k 0 = digitsOf a b c) :
    denoted digits = [a, b, c].take (3 - k) := by
  have hlength := congrArg List.length h
  rw [List.length_append, List.length_replicate] at hlength
  change digits.length + k = 4 at hlength
  obtain ⟨tail, hcount, htail⟩ := denoted_append digits hk (by omega)
  have hgroup := denoted_digitsOf a b c []
  rw [List.append_nil, ← h, htail] at hgroup
  rw [show [a, b, c] = denoted digits ++ tail from hgroup.symm, List.take_left']
  rw [denoted_length]
  omega

theorem encodeBase64_text : ∀ Bytes : List UInt8,
    ∃ digits padding, Text (encodeBase64 Bytes) digits padding ∧ denoted digits = Bytes
  | [] => ⟨[], 0, ⟨by simp, by omega, rfl, rfl⟩, rfl⟩
  | [a] => by
      have hlt := digitsOf_lt a 0 0
      have hchars := chars_eq a 0 0
      simp only [UInt8.toNat_zero, Nat.zero_shiftLeft, Nat.or_zero] at hchars
      refine ⟨(digitsOf a 0 0).take 2, 2, ⟨?_, by decide, ?_, by simp [encodeBase64]⟩, ?_⟩
      · exact fun v hv => hlt v (List.mem_of_mem_take hv)
      · exact congrArg (fun l => l.take 2 ++ [pad, pad]) hchars
      · exact denoted_take (a := a) (b := 0) (c := 0) (k := 2) (by decide) rfl
  | [a, b] => by
      have hlt := digitsOf_lt a b 0
      have hchars := chars_eq a b 0
      simp only [UInt8.toNat_zero, Nat.or_zero] at hchars
      refine ⟨(digitsOf a b 0).take 3, 1, ⟨?_, by decide, ?_, by simp [encodeBase64]⟩, ?_⟩
      · exact fun v hv => hlt v (List.mem_of_mem_take hv)
      · exact congrArg (fun l => l.take 3 ++ [pad]) hchars
      · exact denoted_take (a := a) (b := b) (c := 0) (k := 1) (by decide) rfl
  | a :: b :: c :: Bytes => by
      obtain ⟨digits, padding, h, hvalue⟩ := encodeBase64_text Bytes
      refine ⟨digitsOf a b c ++ digits, padding, ⟨?_, h.le, ?_, ?_⟩, ?_⟩
      · intro v hv
        rcases List.mem_append.mp hv with hv | hv
        · exact digitsOf_lt a b c v hv
        · exact h.lt v hv
      · rw [List.map_append, List.append_assoc, ← h.text, ← chars_eq]
        rfl
      · have hgroups := h.groups
        simp only [encodeBase64, List.length_cons]
        omega
      · rw [denoted_digitsOf, hvalue]

/-! ## The decoder -/

section Decoder

variable {Input} {Output : List UInt8}

theorem bind_eq_ok {α β : Type} {x : Except Error α} {f : α → Except Error β} {r : β} :
    x >>= f = .ok r ↔ ∃ a, x = .ok a ∧ f a = .ok r := by
  cases x with
  | error e => simp [bind, Except.bind]
  | ok a => simp [bind, Except.bind]

theorem hex64Byte_eq_ok {b h : UInt8} :
    hex64Byte Input ByteIdx b = .ok h ↔ Illegal Input ByteIdx b = false ∧ decodeBase64Byte b = h := by
  unfold hex64Byte
  cases Illegal Input ByteIdx b <;> simp

theorem value_lt_of_legal {b : UInt8} (h : Illegal Input ByteIdx b = false) : value b < 64 := by
  refine (value_lt ?_).1
  intro hinv
  simp [Illegal, hinv] at h

theorem decodeQuads_eq_ok : ∀ (rest : List UInt8) (Idx : Nat) (Output : List UInt8),
    rest.length % 4 = 0 →
    (decodeQuads Input Idx rest = .ok Output ↔
      (∀ p ∈ rest.zipIdx Idx, Illegal Input p.2 p.1 = false) ∧
        denoted (rest.map value) = Output)
  | [], Idx, Output, _ => by simp [decodeQuads, denoted, octets]
  | [_], _, _, hlen | [_, _], _, _, hlen | [_, _, _], _, _, hlen => absurd hlen (by simp)
  | b₀ :: b₁ :: b₂ :: b₃ :: rest, Idx, Output, hlen => by
      have ih := fun Output => decodeQuads_eq_ok rest (Idx + 4) Output (by
        simp only [List.length_cons] at hlen
        omega)
      simp only [decodeQuads, bind_eq_ok, hex64Byte_eq_ok, ih, pure, Except.pure, Except.ok.injEq,
        List.zipIdx_cons, List.forall_mem_cons, List.map_cons]
      constructor
      · rintro ⟨_, ⟨h₀, rfl⟩, _, ⟨h₁, rfl⟩, _, ⟨h₂, rfl⟩, _, ⟨h₃, rfl⟩, _, ⟨hrest, rfl⟩, rfl⟩
        exact ⟨⟨h₀, h₁, h₂, h₃, hrest⟩, (outputBytes_eq (value_lt_of_legal h₀)
          (value_lt_of_legal h₁) (value_lt_of_legal h₂) (value_lt_of_legal h₃) _).symm⟩
      · rintro ⟨⟨h₀, h₁, h₂, h₃, hrest⟩, rfl⟩
        exact ⟨_, ⟨h₀, rfl⟩, _, ⟨h₁, rfl⟩, _, ⟨h₂, rfl⟩, _, ⟨h₃, rfl⟩, _, ⟨hrest, rfl⟩,
          outputBytes_eq (value_lt_of_legal h₀) (value_lt_of_legal h₁) (value_lt_of_legal h₂)
            (value_lt_of_legal h₃) _⟩

theorem illegal_digit (hv : v < 64) (ByteIdx : Nat) : Illegal Input ByteIdx (digit v) = false := by
  obtain ⟨hvalue, hpad⟩ := value_digit hv
  have hinv : decodeBase64Byte (digit v) ≠ Inv := by
    intro hinv
    rw [value, hinv] at hvalue
    exact absurd hv (by rw [← hvalue]; decide)
  simp [Illegal, hinv, hpad]

theorem illegal_pad : Illegal Input ByteIdx pad = false ↔
    Input.length - 2 ≤ ByteIdx ∧
      (ByteIdx = Input.length - 2 → Input.getD (ByteIdx + 1) 0 = pad) := by
  have hvalue : decodeBase64Byte pad ≠ Inv := by decide
  simp [Illegal, hvalue]

theorem digit_of_legal {b : UInt8} (h : Illegal Input ByteIdx b = false) (hne : b ≠ pad) :
    digit (value b) = b := by
  refine (value_lt ?_).2 hne
  intro hinv
  simp [Illegal, hinv] at h

theorem Text.length (h : Text Input digits padding) : Input.length = digits.length + padding := by
  rw [h.text, List.length_append, List.length_map, List.length_replicate]

theorem Text.legal (h : Text Input digits padding) :
    ∀ p ∈ Input.zipIdx, Illegal Input p.2 p.1 = false := by
  rintro ⟨b, i⟩ hp
  rw [List.mem_zipIdx_iff_getElem?] at hp
  have hlength := h.length
  have hle := h.le
  have hgroups := h.groups
  rcases Nat.lt_or_ge i digits.length with hi | hi
  · rw [h.text, List.getElem?_append_left (by rwa [List.length_map]), List.getElem?_map] at hp
    obtain ⟨v, hv, rfl⟩ := Option.map_eq_some_iff.mp hp
    exact illegal_digit (h.lt v (List.mem_of_getElem? hv)) i
  · have hpad {j : Nat} (hj : digits.length ≤ j) (hlt : j < Input.length) :
        Input[j]? = some pad := by
      rw [h.text, List.getElem?_append_right (by rwa [List.length_map]), List.getElem?_replicate,
        List.length_map, if_pos]
      omega
    have hlt := (List.getElem?_eq_some_iff.mp hp).1
    rw [hpad hi hlt, Option.some.injEq] at hp
    subst hp
    refine illegal_pad.mpr ⟨by omega, fun heq => ?_⟩
    have hnext : Input[i + 1]? = some pad := hpad (by omega) (by omega)
    rw [List.getD_eq_getElem?_getD, hnext]
    rfl

theorem text_of_legal (hlen : Input.length % 4 = 0)
    (hlegal : ∀ p ∈ Input.zipIdx, Illegal Input p.2 p.1 = false) :
    ∃ digits padding, Text Input digits padding := by
  have hlegal' {i : Nat} {b : UInt8} (hb : Input[i]? = some b) : Illegal Input i b = false :=
    hlegal (b, i) (List.mem_zipIdx_iff_getElem?.mpr hb)
  have hdigit : ∀ b ∈ Input.takeWhile (· != pad), value b < 64 ∧ digit (value b) = b := by
    intro b hb
    obtain ⟨i, hi⟩ := List.mem_iff_getElem?.mp ((List.takeWhile_prefix _).subset hb)
    have hne : b ≠ pad := by simpa using List.mem_takeWhile_imp hb
    exact ⟨value_lt_of_legal (hlegal' hi), digit_of_legal (hlegal' hi) hne⟩
  -- The characters before the first padding are the digits of their values.
  have htext {k : Nat} (hk : k ≤ 2)
      (hrest : Input.dropWhile (· != pad) = List.replicate k pad) :
      Text Input ((Input.takeWhile (· != pad)).map value) k := by
    refine ⟨?_, hk, ?_, hlen⟩
    · intro v hv
      obtain ⟨b, hb, rfl⟩ := List.mem_map.mp hv
      exact (hdigit b hb).1
    · have hmap : ((Input.takeWhile (· != pad)).map value).map digit =
          Input.takeWhile (· != pad) := by
        rw [List.map_map]
        exact (List.map_congr_left fun b hb => (hdigit b hb).2).trans (List.map_id _)
      rw [hmap, ← hrest, List.takeWhile_append_dropWhile]
  have hsplit := List.takeWhile_append_dropWhile (p := (· != pad)) (l := Input)
  have hlength := congrArg List.length hsplit
  cases hrest : Input.dropWhile (· != pad) with
  | nil => exact ⟨_, _, htext (k := 0) (by decide) hrest⟩
  | cons b rest =>
    have hb : b = pad := by
      have hhead := List.head?_dropWhile_not (· != pad) Input
      rw [hrest] at hhead
      simpa using hhead
    subst hb
    rw [hrest] at hsplit hlength
    rw [List.length_append, List.length_cons] at hlength
    have hfirst : Input[(Input.takeWhile (· != pad)).length]? = some pad := by
      have hget := congrArg (fun l => l[(Input.takeWhile (· != pad)).length]?) hsplit
      rw [← hget, List.getElem?_append_right (Nat.le_refl _), Nat.sub_self]
      rfl
    obtain ⟨hend, hnext⟩ := illegal_pad.mp (hlegal' hfirst)
    match rest with
    | [] => exact ⟨_, _, htext (k := 1) (by decide) hrest⟩
    | [c] =>
      have hc := hnext (by rw [← hlength]; simp)
      have hsecond : Input[(Input.takeWhile (· != pad)).length + 1]? = some c := by
        have hget := congrArg (fun l => l[(Input.takeWhile (· != pad)).length + 1]?) hsplit
        rw [← hget, List.getElem?_append_right (Nat.le_add_right _ 1), Nat.add_sub_cancel_left]
        rfl
      rw [List.getD_eq_getElem?_getD, hsecond] at hc
      subst hc
      exact ⟨_, _, htext (k := 2) (by decide) hrest⟩
    | c :: d :: rest =>
      simp only [List.length_cons] at hlength
      omega

theorem strip_text {tail : List UInt8} (h : Text Input digits padding)
    (htail : tail.length = padding) (hlen : 4 ≤ Input.length) :
    strip Input (Output ++ tail) = Output := by
  have hlength := h.length
  have hdigit : ∀ b ∈ digits.map digit, b ≠ pad := by
    intro b hb
    obtain ⟨v, hv, rfl⟩ := List.mem_map.mp hb
    exact (value_digit (h.lt v hv)).2
  have hle := h.le
  have htext := h.text
  unfold strip
  obtain rfl | rfl | rfl : padding = 0 ∨ padding = 1 ∨ padding = 2 := by omega
  · rw [List.replicate_zero, List.append_nil] at htext
    rw [List.length_eq_zero_iff.mp htail, List.append_nil, if_neg]
    intro hlast
    exact hdigit pad (htext ▸ List.mem_of_getLast? hlast) rfl
  · obtain ⟨t, rfl⟩ := List.length_eq_one_iff.mp htail
    have hpenultimate : Input.getD (Input.length - 2) 0 ≠ pad := by
      have hlt : Input.length - 2 < (digits.map digit).length := by
        rw [List.length_map]
        omega
      rw [List.getD_eq_getElem?_getD, htext, List.getElem?_append_left (by rwa [← htext]),
        ← htext, List.getElem?_eq_getElem hlt]
      exact hdigit _ (List.getElem_mem hlt)
    rw [if_pos (by rw [htext]; simp), if_neg hpenultimate, List.dropLast_concat]
  · obtain ⟨s, t, rfl⟩ := List.length_eq_two.mp htail
    have hpenultimate : Input.getD (Input.length - 2) 0 = pad := by
      rw [List.getD_eq_getElem?_getD, hlength, Nat.add_sub_cancel, htext,
        List.getElem?_append_right (by simp)]
      simp
    have hsplit : Output ++ [s, t] = (Output ++ [s]) ++ [t] := by simp
    rw [if_pos (by rw [htext]; simp), if_pos hpenultimate, hsplit, List.dropLast_concat,
      List.dropLast_concat]

theorem decodeBase64_of_text (h : Text Input digits padding) :
    decodeBase64 Input = .ok (denoted digits) := by
  have hlength := h.length
  have hgroups := h.groups
  unfold decodeBase64
  by_cases hempty : Input.length = 0
  · have hnil : digits = [] := List.length_eq_zero_iff.mp (by omega)
    rw [if_pos hempty, hnil]
    rfl
  · rw [if_neg hempty, if_neg (not_not.mpr hgroups)]
    obtain ⟨tail, hcount, htail⟩ := denoted_append digits h.le (hlength ▸ hgroups)
    have hvalues : Input.map value = digits ++ List.replicate padding 0 := by
      have hpad : value pad = 0 := by decide
      rw [h.text, List.map_append, List.map_map, List.map_replicate, hpad]
      exact congrArg (· ++ _) ((List.map_congr_left fun v hv => (value_digit (h.lt v hv)).1).trans
        (List.map_id _))
    have hrun := (decodeQuads_eq_ok Input 0 _ hgroups).mpr ⟨h.legal, rfl⟩
    rw [hvalues, htail] at hrun
    rw [hrun]
    exact congrArg Except.ok (strip_text h hcount (by omega))

theorem text_of_decodeBase64 (hrun : decodeBase64 Input = .ok Output) :
    ∃ digits padding, Text Input digits padding := by
  unfold decodeBase64 at hrun
  split at hrun
  · next hempty =>
    have hnil := List.length_eq_zero_iff.mp hempty
    exact ⟨[], 0, by simp, by omega, hnil, by omega⟩
  · split at hrun
    · cases hrun
    · next hlen =>
      obtain ⟨out, hquads, -⟩ := bind_eq_ok.mp hrun
      exact text_of_legal (not_not.mp hlen)
        ((decodeQuads_eq_ok Input 0 out (not_not.mp hlen)).mp hquads).1

end Decoder

/--
What is encoded is decoded again. The decoder accepts just the texts of RFC 4648,
whatever the unused bits of the last digit are, and yields the bytes they stand for.
-/
theorem base64_exact (Bytes Input : List UInt8) :
    decodeBase64 (encodeBase64 Bytes) = .ok Bytes ∧
    ((∃ Output, decodeBase64 Input = .ok Output) ↔ ∃ digits padding, Text Input digits padding) ∧
    ∀ digits padding, Text Input digits padding →
      decodeBase64 Input = .ok (denoted digits) ∧
      (denoted digits).length = 3 * (Input.length / 4) - padding := by
  refine ⟨?_, ⟨?_, ?_⟩, ?_⟩
  · obtain ⟨digits, padding, h, hvalue⟩ := encodeBase64_text Bytes
    rw [decodeBase64_of_text h, hvalue]
  · rintro ⟨Output, hrun⟩
    exact text_of_decodeBase64 hrun
  · rintro ⟨digits, padding, h⟩
    exact ⟨_, decodeBase64_of_text h⟩
  · intro digits padding h
    have hlength := h.length
    have hgroups := h.groups
    have hle := h.le
    refine ⟨decodeBase64_of_text h, ?_⟩
    rw [denoted_length]
    omega

/-- Two bytes need one character of padding. -/
example : encodeBase64 [0x66, 0x6F] = [90, 109, 56, pad] := by decide

end SmlnjLlvm.Base64
