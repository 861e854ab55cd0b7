import SmlnjLlvm.Library.Digits
import SmlnjLlvm.Support.APIntOps
import Mathlib.Tactic.IntervalCases

/-!
# Reading an integer from a string

The width is estimated from the number of digits, in the arithmetic of `size_t`
and `unsigned`. The value is read digit by digit, modulo the width, and negated
at the end.
-/

namespace SmlnjLlvm.APIntOps

open Numerals

variable {w : Nat}

def UINT_MAX : BitVec 32 := BitVec.allOnes 32

def getDigit (cdigit : Char) (radix : Nat) : BitVec 32 :=
  let c := BitVec.ofNat 32 cdigit.toNat
  let last (radix : Nat) : BitVec 32 :=
    let r := c - 48
    if r.toNat < radix then r else UINT_MAX
  if radix = 16 ∨ radix = 36 then
    let r := c - 48
    if r.toNat ≤ 9 then r
    else
      let r := c - 65
      if r.toNat ≤ radix - 11 then r + 10
      else
        let r := c - 97
        if r.toNat ≤ radix - 11 then r + 10 else last 10
  else last radix

def isRadix (radix : Nat) : Prop :=
  radix = 10 ∨ radix = 8 ∨ radix = 16 ∨ radix = 2 ∨ radix = 36

instance (radix : Nat) : Decidable (isRadix radix) := by
  unfold isRadix
  infer_instance

def splitSign : List Char → Bool × List Char
  | '-' :: p => (true, p)
  | '+' :: p => (false, p)
  | p => (false, p)

def sizeMul (a b : Nat) : Nat := a * b % 2 ^ 64

def withSign (bits : Nat) (IsNegative : Bool) : Nat := (bits + IsNegative.toNat) % 2 ^ 32

def getSufficientBitsNeeded (Str : List Char) (Radix : Nat) : Option Nat :=
  let (IsNegative, p) := splitSign Str
  let StrLen := p.length
  if StrLen = 0 then none
  else if Radix = 2 then some (withSign StrLen IsNegative)
  else if Radix = 8 then some (withSign (sizeMul StrLen 3) IsNegative)
  else if Radix = 16 then some (withSign (sizeMul StrLen 4) IsNegative)
  else if Radix = 10 then
    some (withSign (if StrLen = 1 then 4 else sizeMul StrLen 64 / 18) IsNegative)
  else if Radix = 36 then
    some (withSign (if StrLen = 1 then 7 else sizeMul StrLen 16 / 3) IsNegative)
  else none

def WidthSuffices (numbits slen radix : Nat) : Prop :=
  (slen ≤ numbits ∨ radix ≠ 2) ∧ (sizeMul (slen - 1) 3 ≤ numbits ∨ radix ≠ 8) ∧
    (sizeMul (slen - 1) 4 ≤ numbits ∨ radix ≠ 16) ∧
      (sizeMul (slen - 1) 64 / 22 ≤ numbits ∨ radix ≠ 10)

instance (numbits slen radix : Nat) : Decidable (WidthSuffices numbits slen radix) := by
  unfold WidthSuffices
  infer_instance

def shlInPlace (A : BitVec w) (ShiftAmt : Nat) : Option (BitVec w) :=
  if ShiftAmt ≤ w then some (A <<< ShiftAmt) else none

def radixShift (radix : Nat) : Nat :=
  if radix = 16 then 4 else if radix = 8 then 3 else if radix = 2 then 1 else 0

def addDigit (radix slen : Nat) (V : BitVec w) (c : Char) : Option (BitVec w) := do
  let digit := getDigit c radix
  if digit.toNat < radix then
    let shift := radixShift radix
    let V ←
      if 1 < slen then
        if shift ≠ 0 then shlInPlace V shift else some (V * BitVec.ofNat w radix)
      else some V
    some (V + BitVec.ofNat w digit.toNat)
  else none

def fromString (numbits : Nat) (str : List Char) (radix : Nat) : Option (BitVec numbits) :=
  let (isNeg, p) := splitSign str
  let slen := p.length
  if isRadix radix ∧ slen ≠ 0 ∧ WidthSuffices numbits slen radix then do
    let V ← p.foldlM (addDigit radix slen) 0
    some (if isNeg then -V else V)
  else none

def digitValue (c : Char) : Nat :=
  if '0'.toNat ≤ c.toNat ∧ c.toNat ≤ '9'.toNat then c.toNat - '0'.toNat
  else if 'A'.toNat ≤ c.toNat ∧ c.toNat ≤ 'Z'.toNat then c.toNat - 'A'.toNat + 10
  else if 'a'.toNat ≤ c.toNat ∧ c.toNat ≤ 'z'.toNat then c.toNat - 'a'.toNat + 10
  else 36

variable {c : Char} {isNeg : Bool} {n radix : Nat} {p str : List Char}

theorem toNat_char_sub {k : Nat} (hk : k < 2 ^ 32) :
    (BitVec.ofNat 32 c.toNat - BitVec.ofNat 32 k).toNat =
      if k ≤ c.toNat then c.toNat - k else 2 ^ 32 + c.toNat - k := by
  have hc : c.toNat < 2 ^ 32 := c.val.toNat_lt
  rw [BitVec.toNat_sub, BitVec.toNat_ofNat, BitVec.toNat_ofNat, Nat.mod_eq_of_lt hc,
    Nat.mod_eq_of_lt hk]
  split
  · omega
  · omega

theorem digitValue_cases (c : Char) :
    (48 ≤ c.toNat ∧ c.toNat ≤ 57 ∧ digitValue c = c.toNat - 48) ∨
      (65 ≤ c.toNat ∧ c.toNat ≤ 90 ∧ digitValue c = c.toNat - 65 + 10) ∨
      (97 ≤ c.toNat ∧ c.toNat ≤ 122 ∧ digitValue c = c.toNat - 97 + 10) ∨ digitValue c = 36 := by
  unfold digitValue
  by_cases hdigit : '0'.toNat ≤ c.toNat ∧ c.toNat ≤ '9'.toNat
  · exact .inl ⟨hdigit.1, hdigit.2, if_pos hdigit⟩
  rw [if_neg hdigit]
  by_cases hupper : 'A'.toNat ≤ c.toNat ∧ c.toNat ≤ 'Z'.toNat
  · exact .inr (.inl ⟨hupper.1, hupper.2, if_pos hupper⟩)
  rw [if_neg hupper]
  by_cases hlower : 'a'.toNat ≤ c.toNat ∧ c.toNat ≤ 'z'.toNat
  · exact .inr (.inr (.inl ⟨hlower.1, hlower.2, if_pos hlower⟩))
  · exact .inr (.inr (.inr (if_neg hlower)))

theorem getDigit_eq (hradix : isRadix radix) (h : digitValue c < radix) :
    (getDigit c radix).toNat = digitValue c := by
  have h48 : (BitVec.ofNat 32 c.toNat - 48).toNat =
      if 48 ≤ c.toNat then c.toNat - 48 else 2 ^ 32 + c.toNat - 48 :=
    toNat_char_sub (by decide)
  have h65 : (BitVec.ofNat 32 c.toNat - 65).toNat =
      if 65 ≤ c.toNat then c.toNat - 65 else 2 ^ 32 + c.toNat - 65 :=
    toNat_char_sub (by decide)
  have h97 : (BitVec.ofNat 32 c.toNat - 97).toNat =
      if 97 ≤ c.toNat then c.toNat - 97 else 2 ^ 32 + c.toNat - 97 :=
    toNat_char_sub (by decide)
  have hten : ∀ r : BitVec 32, (r + 10).toNat = (r.toNat + 10) % 2 ^ 32 := fun r => rfl
  unfold isRadix at hradix
  unfold getDigit
  dsimp only
  rcases digitValue_cases c with ⟨hlo, hhi, hval⟩ | ⟨hlo, hhi, hval⟩ | ⟨hlo, hhi, hval⟩ | hval
  · rw [if_pos (by omega)] at h48
    by_cases hletters : radix = 16 ∨ radix = 36
    · rw [if_pos hletters, if_pos (by omega), h48, hval]
    · rw [if_neg hletters, if_pos (by omega), h48, hval]
  · rw [if_pos (by omega)] at h48 h65
    rw [if_pos (by omega), if_neg (by omega), if_pos (by omega), hten, h65, hval]
    omega
  · rw [if_pos (by omega)] at h48 h65 h97
    rw [if_pos (by omega), if_neg (by omega), if_neg (by omega), if_pos (by omega), hten, h97, hval]
    omega
  · omega

/-! ## Values -/

def Digits (radix : Nat) (p : List Char) : Prop := p ≠ [] ∧ ∀ c ∈ p, digitValue c < radix

def digitsValue (radix : Nat) (p : List Char) : Nat := numeral radix (p.map digitValue)

def signed (isNeg : Bool) (v : Nat) : Int := if isNeg then -v else v

theorem digitsValue_lt (hradix : isRadix radix) (hp : Digits radix p) :
    digitsValue radix p < radix ^ p.length := by
  have hlt : numeral radix (p.map digitValue) < radix ^ (p.map digitValue).length :=
    numeral_lt (by unfold isRadix at hradix; omega) ?_
  · rwa [List.length_map] at hlt
  · intro d hd
    obtain ⟨c, hc, rfl⟩ := List.mem_map.mp hd
    exact hp.2 c hc

def CanShift (w slen radix : Nat) : Prop := 1 < slen → radixShift radix ≤ w

theorem radixShift_cases (hradix : isRadix radix) :
    (radixShift radix ≠ 0 ∧ radix = 2 ^ radixShift radix) ∨ radixShift radix = 0 := by
  rcases hradix with rfl | rfl | rfl | rfl | rfl
  · exact .inr rfl
  · exact .inl ⟨by decide, rfl⟩
  · exact .inl ⟨by decide, rfl⟩
  · exact .inl ⟨by decide, rfl⟩
  · exact .inr rfl

theorem addDigit_long {slen : Nat} (hradix : isRadix radix) (hlong : 1 < slen)
    (hshift : CanShift w slen radix) (v : Nat) (hc : digitValue c < radix) :
    addDigit radix slen (BitVec.ofNat w v) c =
      some (BitVec.ofNat w (v * radix + digitValue c)) := by
  have hdigit := getDigit_eq hradix hc
  unfold addDigit
  dsimp only
  rw [hdigit, if_pos hc, if_pos hlong, BitVec.ofNat_add, BitVec.ofNat_mul]
  rcases radixShift_cases hradix with ⟨hne, hpow⟩ | hzero
  · have hmul : BitVec.ofNat w v <<< radixShift radix = BitVec.ofNat w v * BitVec.ofNat w radix := by
      have htwo : BitVec.twoPow w (radixShift radix) = BitVec.ofNat w radix := by
        apply BitVec.eq_of_toNat_eq
        rw [BitVec.toNat_twoPow, BitVec.toNat_ofNat, ← hpow]
      rw [BitVec.shiftLeft_eq_mul_twoPow, htwo]
    rw [if_pos hne, shlInPlace, if_pos (hshift hlong), hmul]
    rfl
  · rw [if_neg (not_not.mpr hzero)]
    rfl

theorem addDigit_short (hradix : isRadix radix) (hc : digitValue c < radix) :
    addDigit radix 1 (0 : BitVec w) c = some (BitVec.ofNat w (digitValue c)) := by
  have hdigit := getDigit_eq hradix hc
  unfold addDigit
  dsimp only
  rw [hdigit, if_pos hc, if_neg (Nat.lt_irrefl 1)]
  exact congrArg some (BitVec.zero_add _)

theorem addDigits_long {slen : Nat} (hradix : isRadix radix) (hlong : 1 < slen)
    (hshift : CanShift w slen radix) (p : List Char) (hp : ∀ c ∈ p, digitValue c < radix)
    (v : Nat) :
    p.foldlM (addDigit radix slen) (BitVec.ofNat w v) =
      some (BitVec.ofNat w (numeralFrom radix v (p.map digitValue))) := by
  induction p generalizing v with
  | nil => rfl
  | cons c p ih =>
    have hstep := addDigit_long hradix hlong hshift v (hp c List.mem_cons_self)
    rw [List.foldlM_cons, hstep, List.map_cons, numeralFrom_cons]
    exact ih (fun c' hc' => hp c' (List.mem_cons_of_mem c hc')) _

theorem addDigits_eq (hradix : isRadix radix) (hp : Digits radix p)
    (hshift : CanShift w p.length radix) :
    p.foldlM (addDigit radix p.length) (0 : BitVec w) =
      some (BitVec.ofNat w (digitsValue radix p)) := by
  by_cases hlong : 1 < p.length
  · exact addDigits_long hradix hlong hshift p hp.2 0
  · obtain ⟨c, rfl⟩ : ∃ c, p = [c] := by
      have hpos := List.length_pos_iff.mpr hp.1
      exact List.length_eq_one_iff.mp (by omega)
    have hstep := addDigit_short (w := w) hradix (hp.2 c List.mem_cons_self)
    rw [List.foldlM_cons, List.length_singleton, hstep, digitsValue, List.map_singleton,
      numeral_singleton]
    rfl

theorem fromString_eq {numbits : Nat} (hradix : isRadix radix)
    (hsplit : splitSign str = (isNeg, p)) (hp : Digits radix p)
    (hwidth : WidthSuffices numbits p.length radix) (hshift : CanShift numbits p.length radix) :
    fromString numbits str radix =
      some (BitVec.ofInt numbits (signed isNeg (digitsValue radix p))) := by
  have hlength : p.length ≠ 0 := fun h => hp.1 (List.length_eq_zero_iff.mp h)
  unfold fromString
  rw [hsplit]
  dsimp only
  rw [if_pos ⟨hradix, hlength, hwidth⟩, addDigits_eq hradix hp hshift]
  cases isNeg with
  | false =>
    change some (BitVec.ofNat numbits _) = some (BitVec.ofInt numbits (Nat.cast _))
    rw [BitVec.ofInt_natCast]
  | true =>
    change some (-BitVec.ofNat numbits _) = some (BitVec.ofInt numbits (-Nat.cast _))
    rw [BitVec.ofInt_neg, BitVec.ofInt_natCast]

theorem fromString_none {numbits : Nat} (hradix : isRadix radix)
    (hsplit : splitSign str = (isNeg, p)) (hp : Digits radix p)
    (h : ¬(WidthSuffices numbits p.length radix ∧ CanShift numbits p.length radix)) :
    fromString numbits str radix = none := by
  unfold fromString
  rw [hsplit]
  dsimp only
  by_cases hwidth : WidthSuffices numbits p.length radix
  · obtain ⟨hlong, hshift⟩ : 1 < p.length ∧ numbits < radixShift radix := by
      have hcan : ¬CanShift numbits p.length radix := fun hcan => h ⟨hwidth, hcan⟩
      unfold CanShift at hcan
      push Not at hcan
      exact hcan
    cases p with
    | nil => exact absurd rfl hp.1
    | cons c p =>
      have hdigit := getDigit_eq hradix (hp.2 c List.mem_cons_self)
      have hfail : addDigit radix (c :: p).length (0 : BitVec numbits) c = none := by
        unfold addDigit
        dsimp only
        rw [hdigit, if_pos (hp.2 c List.mem_cons_self), if_pos hlong, if_pos (by omega), shlInPlace,
          if_neg (by omega)]
        rfl
      rw [if_pos ⟨hradix, Nat.succ_ne_zero _, hwidth⟩, List.foldlM_cons, hfail]
      rfl
  · rw [if_neg fun hall => hwidth hall.2.2]

/-! ## Widths -/

def readAs (isNeg : Bool) (A : BitVec w) : Int := if isNeg then A.toInt else A.toNat

def FitsWidth (w : Nat) : Bool → Nat → Prop
  | false, v => v < 2 ^ w
  | true, v => 2 * v ≤ 2 ^ w

theorem readAs_ofInt_iff (w : Nat) (isNeg : Bool) (v : Nat) :
    readAs isNeg (BitVec.ofInt w (signed isNeg v)) = signed isNeg v ↔ FitsWidth w isNeg v := by
  have hpos := Nat.two_pow_pos w
  cases isNeg with
  | false =>
    change (((BitVec.ofNat w v).toNat : Nat) : Int) = (v : Int) ↔ v < 2 ^ w
    rw [BitVec.toNat_ofNat, Nat.cast_inj]
    exact Nat.mod_eq_iff_lt hpos.ne'
  | true =>
    change (BitVec.ofInt w (-(v : Int))).toInt = -(v : Int) ↔ 2 * v ≤ 2 ^ w
    rw [BitVec.toInt_ofInt]
    generalize 2 ^ w = m at hpos
    constructor
    · intro h
      have hle := Int.le_bmod (x := -(v : Int)) hpos
      omega
    · intro h
      apply Int.bmod_eq_of_le
      · omega
      · omega

def bitsEstimate (radix n : Nat) : Nat :=
  if radix = 2 then n
  else if radix = 8 then n * 3
  else if radix = 16 then n * 4
  else if radix = 10 then if n = 1 then 4 else n * 64 / 18
  else if n = 1 then 7
  else n * 16 / 3

def sizeBits (radix n : Nat) : Nat :=
  if radix = 2 then n
  else if radix = 8 then sizeMul n 3
  else if radix = 16 then sizeMul n 4
  else if radix = 10 then if n = 1 then 4 else sizeMul n 64 / 18
  else if n = 1 then 7
  else sizeMul n 16 / 3

theorem getSufficientBitsNeeded_eq (hradix : isRadix radix) (hsplit : splitSign str = (isNeg, p))
    (hp : p ≠ []) :
    getSufficientBitsNeeded str radix = some (withSign (sizeBits radix p.length) isNeg) := by
  have hlength : p.length ≠ 0 := fun h => hp (List.length_eq_zero_iff.mp h)
  unfold getSufficientBitsNeeded
  rw [hsplit]
  dsimp only
  rw [if_neg hlength]
  rcases hradix with rfl | rfl | rfl | rfl | rfl
  · rfl
  · rfl
  · rfl
  · rfl
  · rfl

theorem sizeBits_eq (hradix : isRadix radix) (h : bitsEstimate radix n < 2 ^ 32) :
    sizeBits radix n = bitsEstimate radix n := by
  rcases hradix with rfl | rfl | rfl | rfl | rfl
  · change (if n = 1 then 4 else n * 64 / 18) < 2 ^ 32 at h
    change (if n = 1 then 4 else n * 64 % 2 ^ 64 / 18) = if n = 1 then 4 else n * 64 / 18
    by_cases hone : n = 1
    · rw [if_pos hone, if_pos hone]
    · rw [if_neg hone] at h
      rw [if_neg hone, if_neg hone, Nat.mod_eq_of_lt (by omega)]
  · change n * 3 < 2 ^ 32 at h
    exact Nat.mod_eq_of_lt (by omega)
  · change n * 4 < 2 ^ 32 at h
    exact Nat.mod_eq_of_lt (by omega)
  · rfl
  · change (if n = 1 then 7 else n * 16 / 3) < 2 ^ 32 at h
    change (if n = 1 then 7 else n * 16 % 2 ^ 64 / 3) = if n = 1 then 7 else n * 16 / 3
    by_cases hone : n = 1
    · rw [if_pos hone, if_pos hone]
    · rw [if_neg hone] at h
      rw [if_neg hone, if_neg hone, Nat.mod_eq_of_lt (by omega)]

theorem sizeMul_le (a b : Nat) : sizeMul a b ≤ a * b := Nat.mod_le _ _

theorem bitsEstimate_suffices {W : Nat} (hradix : isRadix radix) (hW : bitsEstimate radix n ≤ W) :
    WidthSuffices W n radix ∧ CanShift W n radix := by
  have h3 := sizeMul_le (n - 1) 3
  have h4 := sizeMul_le (n - 1) 4
  have h64 := sizeMul_le (n - 1) 64
  unfold WidthSuffices CanShift
  rcases hradix with rfl | rfl | rfl | rfl | rfl
  · have hcount : (if n = 1 then 4 else n * 64 / 18) ≤ W := hW
    have hshift : radixShift 10 = 0 := rfl
    by_cases hone : n = 1
    · rw [hone] at h64 ⊢
      omega
    · rw [if_neg hone] at hcount
      omega
  · have hcount : n * 3 ≤ W := hW
    have hshift : radixShift 8 = 3 := rfl
    omega
  · have hcount : n * 4 ≤ W := hW
    have hshift : radixShift 16 = 4 := rfl
    omega
  · have hcount : n ≤ W := hW
    have hshift : radixShift 2 = 1 := rfl
    omega
  · have hshift : radixShift 36 = 0 := rfl
    omega

def TwoLargeDigits (radix : Nat) (isNeg : Bool) (p : List Char) : Prop :=
  radix = 36 ∧ p.length = 2 ∧ 1024 + isNeg.toNat ≤ digitsValue radix p

theorem fitsWidth_of_lt (isNeg : Bool) {bits v : Nat} (h : v < 2 ^ bits) :
    FitsWidth (bits + isNeg.toNat) isNeg v := by
  cases isNeg with
  | false => exact h
  | true =>
    change 2 * v ≤ 2 ^ (bits + 1)
    rw [Nat.pow_succ]
    omega

theorem pow_le_bitsEstimate (hradix : isRadix radix) (hn : n ≠ 0) (h : ¬(radix = 36 ∧ n = 2)) :
    radix ^ n ≤ 2 ^ bitsEstimate radix n := by
  rcases hradix with rfl | rfl | rfl | rfl | rfl
  · change 10 ^ n ≤ 2 ^ (if n = 1 then 4 else n * 64 / 18)
    by_cases hone : n = 1
    · rw [if_pos hone, hone]
      decide
    · rw [if_neg hone]
      refine pow_le_two_pow_ratio (p := 9) (q := 32) (k := 2) (by decide) (by decide) (by decide)
        (by decide) ?_ (by omega)
      intro m hlo hhi
      interval_cases m <;> decide
  · change 8 ^ n ≤ 2 ^ (n * 3)
    rw [Nat.mul_comm, Nat.pow_mul]
  · change 16 ^ n ≤ 2 ^ (n * 4)
    rw [Nat.mul_comm, Nat.pow_mul]
  · exact Nat.le_refl _
  · change 36 ^ n ≤ 2 ^ (if n = 1 then 7 else n * 16 / 3)
    by_cases hone : n = 1
    · rw [if_pos hone, hone]
      decide
    · rw [if_neg hone]
      refine pow_le_two_pow_ratio (p := 3) (q := 16) (k := 3) (by decide) (by decide) (by decide)
        (by decide) ?_ (by omega)
      intro m hlo hhi
      interval_cases m <;> decide

theorem fitsWidth_bitsEstimate_iff (hradix : isRadix radix) (hp : Digits radix p) :
    FitsWidth (bitsEstimate radix p.length + isNeg.toNat) isNeg (digitsValue radix p) ↔
      ¬TwoLargeDigits radix isNeg p := by
  have hlength : p.length ≠ 0 := fun h => hp.1 (List.length_eq_zero_iff.mp h)
  unfold TwoLargeDigits
  by_cases htwo : radix = 36 ∧ p.length = 2
  · obtain ⟨rfl, hlen⟩ := htwo
    have hbits : bitsEstimate 36 p.length = 10 := by
      rw [hlen]
      rfl
    rw [hbits]
    cases isNeg with
    | false =>
      change digitsValue 36 p < 2 ^ 10 ↔ ¬(36 = 36 ∧ p.length = 2 ∧ 1024 + 0 ≤ digitsValue 36 p)
      omega
    | true =>
      change 2 * digitsValue 36 p ≤ 2 ^ 11 ↔
        ¬(36 = 36 ∧ p.length = 2 ∧ 1024 + 1 ≤ digitsValue 36 p)
      omega
  · have hfits := fitsWidth_of_lt isNeg
      ((digitsValue_lt hradix hp).trans_le (pow_le_bitsEstimate hradix hlength htwo))
    exact ⟨fun _ hlarge => htwo ⟨hlarge.1, hlarge.2.1⟩, fun _ => hfits⟩

/-- The width that is returned holds the integer of the string, and the constructor with this width
yields the integer. -/
def Sufficient (radix : Nat) (str : List Char) : Prop :=
  let (isNeg, p) := splitSign str
  ∃ W A, getSufficientBitsNeeded str radix = some W ∧ fromString W str radix = some A ∧
    readAs isNeg A = signed isNeg (digitsValue radix p)

/-- The count of bits has the type `unsigned`, and the number is not one of two large digits. Where
the count is cut, leading zeros may leave a number that fits. -/
def Enough (radix : Nat) (str : List Char) : Prop :=
  let (isNeg, p) := splitSign str
  if bitsEstimate radix p.length + isNeg.toNat < 2 ^ 32 then ¬TwoLargeDigits radix isNeg p
  else
    let W := withSign (sizeBits radix p.length) isNeg
    (WidthSuffices W p.length radix ∧ CanShift W p.length radix) ∧
      FitsWidth W isNeg (digitsValue radix p)

theorem read_iff {W : Nat} (hradix : isRadix radix) (hsplit : splitSign str = (isNeg, p))
    (hp : Digits radix p) :
    (∃ A, fromString W str radix = some A ∧
        readAs isNeg A = signed isNeg (digitsValue radix p)) ↔
      (WidthSuffices W p.length radix ∧ CanShift W p.length radix) ∧
        FitsWidth W isNeg (digitsValue radix p) := by
  by_cases hchecks : WidthSuffices W p.length radix ∧ CanShift W p.length radix
  · rw [fromString_eq hradix hsplit hp hchecks.1 hchecks.2]
    constructor
    · rintro ⟨A, hA, hread⟩
      cases hA
      exact ⟨hchecks, (readAs_ofInt_iff W isNeg _).mp hread⟩
    · intro h
      exact ⟨_, rfl, (readAs_ofInt_iff W isNeg _).mpr h.2⟩
  · rw [fromString_none hradix hsplit hp hchecks]
    constructor
    · rintro ⟨A, hA, -⟩
      cases hA
    · intro h
      exact absurd h.1 hchecks

theorem sufficient_iff_enough (hradix : isRadix radix) (hp : Digits radix (splitSign str).2) :
    Sufficient radix str ↔ Enough radix str := by
  cases hsplit : splitSign str with
  | mk isNeg p =>
    rw [hsplit] at hp
    have hread : Sufficient radix str ↔
        ∃ A, fromString (withSign (sizeBits radix p.length) isNeg) str radix = some A ∧
          readAs isNeg A = signed isNeg (digitsValue radix p) := by
      unfold Sufficient
      rw [hsplit, getSufficientBitsNeeded_eq hradix hsplit hp.1]
      constructor
      · rintro ⟨W, A, hW, hA⟩
        cases hW
        exact ⟨A, hA⟩
      · rintro ⟨A, hA⟩
        exact ⟨_, A, rfl, hA⟩
    rw [hread, read_iff hradix hsplit hp]
    unfold Enough
    rw [hsplit]
    dsimp only
    by_cases hcount : bitsEstimate radix p.length + isNeg.toNat < 2 ^ 32
    · have hW : withSign (sizeBits radix p.length) isNeg =
          bitsEstimate radix p.length + isNeg.toNat := by
        rw [sizeBits_eq hradix (Nat.lt_of_le_of_lt (Nat.le_add_right _ _) hcount), withSign,
          Nat.mod_eq_of_lt hcount]
      rw [if_pos hcount, hW, fitsWidth_bitsEstimate_iff hradix hp]
      exact and_iff_right (bitsEstimate_suffices hradix (Nat.le_add_right _ _))
    · rw [if_neg hcount]

end SmlnjLlvm.APIntOps
