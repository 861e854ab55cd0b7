import SmlnjLlvm.Asdl.IntegerDigits

/-!
# Conversions of multiprecision integers

Integers are made from fixed-size ones and converted back. A conversion has no
result where it is undefined, and otherwise either does not fit or yields a
number.
-/

namespace SmlnjLlvm.Asdl

open ByteDecoder

def Integer.value (z : Integer) : Int :=
  if z.sign then -(magnitude z.digits : Int) else magnitude z.digits

/-- What signed arithmetic does with a result out of range: anything, or it wraps around. -/
inductive Overflow where
  | undefined
  | wraps
  deriving DecidableEq

def negate (o : Overflow) (least n : Int) : Option Int :=
  if n = least then
    match o with
    | .undefined => none
    | .wraps => some least
  else some (-n)

def absolute (o : Overflow) (least n : Int) : Option Int :=
  if n < 0 then negate o least n else some n

def INT32_MIN : Int := -2 ^ 31

def INT64_MIN : Int := -2 ^ 63

def Integer.default : Integer := ⟨false, [0]⟩

def Integer.ofUInt32 (n : UInt32) : Integer := ⟨false, if n ≠ 0 then [n] else []⟩

def Integer.ofInt32 (o : Overflow) (n : BitVec 32) : Option Integer :=
  if n ≠ 0 then do
    let a ← absolute o INT32_MIN n.toInt
    some ⟨decide (n.toInt < 0), [UInt32.ofBitVec (BitVec.ofInt 32 a)]⟩
  else some ⟨decide (n.toInt < 0), []⟩

def digits64 (n : UInt64) : List UInt32 :=
  if n < 0x100000000 then [n.toUInt32] else [(n >>> 32).toUInt32, n.toUInt32]

def Integer.ofUInt64 (n : UInt64) : Integer := ⟨false, if n ≠ 0 then digits64 n else []⟩

def Integer.ofInt64 (o : Overflow) (n : BitVec 64) : Option Integer :=
  if n ≠ 0 then do
    let a ← absolute o INT64_MIN n.toInt
    some ⟨decide (n.toInt < 0), digits64 (UInt64.ofBitVec (BitVec.ofInt 64 a))⟩
  else some ⟨decide (n.toInt < 0), []⟩

abbrev Conversion := Option (Option Int)

def Integer.toInt32 (o : Overflow) (z : Integer) : Conversion :=
  match z.digits with
  | [] => some (some 0)
  | [d] =>
    if z.sign then
      if d ≤ 0x80000000 then (negate o INT32_MIN d.toBitVec.toInt).map some else some none
    else if d < 0x80000000 then some (some d.toBitVec.toInt)
    else some none
  | _ :: _ :: _ => some none

def Integer.toInt64 (o : Overflow) (z : Integer) : Conversion :=
  match z.digits with
  | [] => some (some 0)
  | [d] => some (some (if z.sign then -(d.toNat : Int) else d.toNat))
  | [d, d'] =>
    let un := (d.toUInt64 <<< 32) + d'.toUInt64
    if z.sign then
      if un ≤ 0x8000000000000000 then (negate o INT64_MIN un.toBitVec.toInt).map some
      else some none
    else if un ≤ 0x7fffffffffffffff then some (some un.toBitVec.toInt)
    else some none
  | _ :: _ :: _ :: _ => some none

def Integer.toUInt32 (z : Integer) : Conversion :=
  match z.digits with
  | [] => some (some 0)
  | [d] => some (some d.toNat)
  | _ :: _ :: _ => some none

def Integer.toUInt64 (z : Integer) : Conversion :=
  match z.digits with
  | [] => some (some 0)
  | [d] => some (some d.toUInt64.toNat)
  | [d, d'] => some (some ((d.toUInt64 <<< 32) + d'.toUInt64).toNat)
  | _ :: _ :: _ :: _ => some none

inductive FixedInt where
  | int32
  | int64
  | uint32
  | uint64

namespace FixedInt

def width : FixedInt → Nat
  | int32 | uint32 => 32
  | int64 | uint64 => 64

def signed : FixedInt → Bool
  | int32 | int64 => true
  | uint32 | uint64 => false

def Holds (T : FixedInt) (n : Int) : Prop :=
  if T.signed then -2 ^ (T.width - 1) ≤ n ∧ n < 2 ^ (T.width - 1) else 0 ≤ n ∧ n < 2 ^ T.width

instance (T : FixedInt) (n : Int) : Decidable (T.Holds n) := by
  unfold Holds
  infer_instance

def construct (o : Overflow) (n : Int) : FixedInt → Option Integer
  | int32 => Integer.ofInt32 o (BitVec.ofInt 32 n)
  | int64 => Integer.ofInt64 o (BitVec.ofInt 64 n)
  | uint32 => some (Integer.ofUInt32 (UInt32.ofBitVec (BitVec.ofInt 32 n)))
  | uint64 => some (Integer.ofUInt64 (UInt64.ofBitVec (BitVec.ofInt 64 n)))

def convert (o : Overflow) (z : Integer) : FixedInt → Conversion
  | int32 => z.toInt32 o
  | int64 => z.toInt64 o
  | uint32 => z.toUInt32
  | uint64 => z.toUInt64

end FixedInt

def MinimalEncoding (bytes : Bytes) : Prop :=
  IntegerEncoding bytes ∧ (bytes.length = 1 ∨ 2 ^ (7 * (bytes.length - 1) - 1) ≤ encodedMagnitude bytes)

inductive Producer where
  | default
  | fixed (T : FixedInt) (n : Int)
  | stream (bytes : Bytes)

def Producer.Makes (o : Overflow) : Producer → Integer → Prop
  | default, z => z = Integer.default
  | fixed T n, z => T.Holds n ∧ T.construct o n = some z
  | stream bytes, z => IntegerEncoding bytes ∧ Decodes Integer.ofStream bytes (some z)

def Producer.Minimal : Producer → Prop
  | default => True
  | fixed _ _ => True
  | stream bytes => MinimalEncoding bytes

/-! ## Exact conversions -/

/-- The conversion fits exactly for the numbers of the type, and then stores the integer. -/
def Exact (o : Overflow) (T : FixedInt) (z : Integer) : Prop :=
  T.convert o z = some (if T.Holds z.value then some z.value else none)

def DropsSign (T : FixedInt) (n : Int) : Prop := T.signed = false ∧ n < 0 ∧ -2 ^ T.width < n

def Overflows (o : Overflow) (T : FixedInt) (n : Int) : Prop :=
  o = .undefined ∧ T.signed = true ∧ n = -2 ^ (T.width - 1)

def WellSized (z : Integer) : Prop := Normalised z.digits ∨ z = Integer.default

theorem magnitude_nil : magnitude [] = 0 := rfl

theorem magnitude_one (d : UInt32) : magnitude [d] = d.toNat := by
  rw [magnitude_cons, magnitude_nil]
  simp

theorem magnitude_two (d d' : UInt32) : magnitude [d, d'] = d.toNat * 2 ^ 32 + d'.toNat := by
  rw [magnitude_cons, magnitude_one]
  rfl

theorem toInt_toBitVec32 (d : UInt32) :
    d.toBitVec.toInt = if d.toNat < 2 ^ 31 then (d.toNat : Int) else d.toNat - 2 ^ 32 := by
  rw [BitVec.toInt_eq_toNat_cond]
  show (if 2 * d.toNat < 2 ^ 32 then (d.toNat : Int) else d.toNat - (2 ^ 32 : Nat)) = _
  split <;> split <;> omega

theorem toInt_toBitVec64 (d : UInt64) :
    d.toBitVec.toInt = if d.toNat < 2 ^ 63 then (d.toNat : Int) else d.toNat - 2 ^ 64 := by
  rw [BitVec.toInt_eq_toNat_cond]
  show (if 2 * d.toNat < 2 ^ 64 then (d.toNat : Int) else d.toNat - (2 ^ 64 : Nat)) = _
  split <;> split <;> omega

variable {T : FixedInt} {k m : Nat} {n : Int} {o : Overflow} {z : Integer}

theorem negate_cast (o : Overflow) (hn : n = if m < 2 ^ k then (m : Int) else m - 2 ^ (k + 1))
    (hm : m ≤ 2 ^ k) :
    negate o (-2 ^ k) n = if o = .undefined ∧ m = 2 ^ k then none else some (-(m : Int)) := by
  have hpow : (2 : Int) ^ (k + 1) = 2 * 2 ^ k := by rw [Int.pow_succ, Int.mul_comm]
  have hcast : ((2 ^ k : Nat) : Int) = 2 ^ k := by simp
  unfold negate
  by_cases hlast : m = 2 ^ k
  · have hleast : n = -2 ^ k := by
      rw [hn, if_neg (by omega), hlast, hpow]
      omega
    rw [if_pos hleast]
    cases o with
    | undefined => simp [hlast]
    | wraps => simp [hlast]
  · have hlt : m < 2 ^ k := by omega
    rw [if_pos hlt] at hn
    rw [if_neg (by omega), if_neg fun hboth => hlast hboth.2, hn]

theorem FixedInt.holds_signed (hT : T.signed = true) (n : Int) :
    T.Holds n ↔ -2 ^ (T.width - 1) ≤ n ∧ n < 2 ^ (T.width - 1) := by
  rw [Holds, if_pos hT]

theorem FixedInt.holds_unsigned (hT : T.signed = false) (n : Int) :
    T.Holds n ↔ 0 ≤ n ∧ n < 2 ^ T.width := by
  rw [Holds, if_neg (by rw [hT]; decide)]

theorem Integer.value_neg (h : z.sign = true) : z.value = -(magnitude z.digits : Int) := if_pos h

theorem Integer.value_nonneg (h : z.sign = false) :
    z.value = magnitude z.digits := if_neg (by rw [h]; decide)

theorem signed_exact_iff (hT : T.signed = true) (hm : magnitude z.digits = m)
    (hneg : z.sign = true → T.convert o z =
      if m ≤ 2 ^ (T.width - 1) then
        (if o = .undefined ∧ m = 2 ^ (T.width - 1) then none else some (-(m : Int))).map some
      else some none) (hpos : z.sign = false → T.convert o z =
      if m < 2 ^ (T.width - 1) then some (some (m : Int)) else some none) :
    Exact o T z ↔ ¬Overflows o T z.value := by
  have hcast : ((2 ^ (T.width - 1) : Nat) : Int) = 2 ^ (T.width - 1) := by simp
  have hholds := FixedInt.holds_signed hT
  have hbound := Nat.two_pow_pos (T.width - 1)
  unfold Exact Overflows
  generalize (2 : Int) ^ (T.width - 1) = limit at hcast hholds ⊢
  generalize 2 ^ (T.width - 1) = bound at hneg hpos hcast hbound
  cases hsign : z.sign with
  | true =>
    rw [hneg hsign, Integer.value_neg hsign, hm]
    by_cases hle : m ≤ bound
    · have hfits : T.Holds (-(m : Int)) := (hholds _).mpr (by omega)
      rw [if_pos hle, if_pos hfits]
      by_cases hlast : o = .undefined ∧ m = bound
      · rw [if_pos hlast]
        simp only [Option.map_none, reduceCtorEq, false_iff, not_not]
        exact ⟨hlast.1, hT, by omega⟩
      · rw [if_neg hlast]
        simp only [Option.map_some, true_iff]
        exact fun hover => hlast ⟨hover.1, by omega⟩
    · rw [if_neg hle, if_neg fun hfits => by have hin := (hholds _).mp hfits; omega]
      simp only [true_iff]
      omega
  | false =>
    rw [hpos hsign, Integer.value_nonneg hsign, hm]
    by_cases hlt : m < bound
    · have hfits : T.Holds (m : Int) := (hholds _).mpr (by omega)
      rw [if_pos hlt, if_pos hfits]
      simp only [true_iff]
      omega
    · rw [if_neg hlt, if_neg fun hfits => by have hin := (hholds _).mp hfits; omega]
      simp only [true_iff]
      omega

theorem unsigned_exact_iff (hT : T.signed = false) (hm : magnitude z.digits = m)
    (hconvert : T.convert o z = if m < 2 ^ T.width then some (some (m : Int)) else some none) :
    Exact o T z ↔ ¬DropsSign T z.value := by
  have hcast : ((2 ^ T.width : Nat) : Int) = 2 ^ T.width := by simp
  have hholds := FixedInt.holds_unsigned hT
  unfold Exact DropsSign
  rw [hconvert]
  generalize (2 : Int) ^ T.width = limit at hcast hholds ⊢
  generalize 2 ^ T.width = bound at hcast
  cases hsign : z.sign with
  | true =>
    rw [Integer.value_neg hsign, hm]
    by_cases hlt : m < bound
    · rw [if_pos hlt]
      by_cases hzero : m = 0
      · have hfits : T.Holds (-(m : Int)) := (hholds _).mpr (by omega)
        rw [if_pos hfits, hzero]
        simp
      · rw [if_neg fun hfits => by have hin := (hholds _).mp hfits; omega]
        simp only [Option.some.injEq, reduceCtorEq, false_iff, not_not]
        exact ⟨hT, by omega, by omega⟩
    · rw [if_neg hlt, if_neg fun hfits => by have hin := (hholds _).mp hfits; omega]
      simp only [true_iff]
      rintro ⟨-, hnegative, hbelow⟩
      omega
  | false =>
    rw [Integer.value_nonneg hsign, hm]
    by_cases hlt : m < bound
    · have hfits : T.Holds (m : Int) := (hholds _).mpr (by omega)
      rw [if_pos hlt, if_pos hfits]
      simp only [true_iff]
      rintro ⟨-, hnegative, hbelow⟩
      omega
    · rw [if_neg hlt, if_neg fun hfits => by have hin := (hholds _).mp hfits; omega]
      simp only [true_iff]
      rintro ⟨-, hnegative, hbelow⟩
      omega

theorem join_toNat (d d' : UInt32) :
    ((d.toUInt64 <<< 32) + d'.toUInt64).toNat = magnitude [d, d'] := by
  have hd := d.toNat_lt
  have hd' := d'.toNat_lt
  have hshift : (d.toUInt64 <<< 32).toNat = d.toNat * 2 ^ 32 := by
    rw [UInt64.toNat_shiftLeft, UInt32.toNat_toUInt64]
    show d.toNat <<< 32 % 2 ^ 64 = d.toNat * 2 ^ 32
    rw [Nat.shiftLeft_eq]
    omega
  rw [magnitude_two, UInt64.toNat_add, hshift, UInt32.toNat_toUInt64]
  omega

theorem WellSized.le_magnitude {sign : Bool} {d : UInt32} {digits : List UInt32}
    (h : WellSized ⟨sign, d :: digits⟩) {n : Nat} (hpos : 0 < n) (hn : n ≤ digits.length) :
    2 ^ (32 * n) ≤ magnitude (d :: digits) := by
  rcases h with hnormal | hdefault
  · exact Nat.le_trans (Nat.pow_le_pow_right Nat.two_pos (Nat.mul_le_mul_left 32 hn))
      (normalised_iff.mp hnormal)
  · have hlength := congrArg (fun z => z.digits.length) hdefault
    simp only [Integer.default, List.length_cons, List.length_nil] at hlength
    omega

theorem toInt32_exact_iff (o : Overflow) (h : WellSized z) :
    Exact o .int32 z ↔ ¬Overflows o .int32 z.value := by
  match z, h with
  | ⟨sign, []⟩, _ =>
    refine signed_exact_iff rfl magnitude_nil (fun _ => ?_) (fun _ => ?_)
    · simp [FixedInt.convert, Integer.toInt32, FixedInt.width]
    · simp [FixedInt.convert, Integer.toInt32, FixedInt.width]
  | ⟨sign, [d]⟩, _ =>
    refine signed_exact_iff rfl (magnitude_one d) (fun hsign => ?_) (fun hsign => ?_)
    · obtain rfl : sign = true := hsign
      show (if d ≤ 0x80000000 then (negate o INT32_MIN d.toBitVec.toInt).map some else some none) =
        if d.toNat ≤ 2 ^ 31 then
          (if o = .undefined ∧ d.toNat = 2 ^ 31 then none else some (-(d.toNat : Int))).map some
        else some none
      by_cases hle : d.toNat ≤ 2 ^ 31
      · rw [if_pos (show d ≤ 0x80000000 from hle), if_pos hle]
        exact congrArg _ (negate_cast o (toInt_toBitVec32 d) hle)
      · rw [if_neg (show ¬d ≤ 0x80000000 from hle), if_neg hle]
    · obtain rfl : sign = false := hsign
      show (if d < 0x80000000 then some (some d.toBitVec.toInt) else some none) =
        if d.toNat < 2 ^ 31 then some (some (d.toNat : Int)) else some none
      by_cases hlt : d.toNat < 2 ^ 31
      · rw [if_pos (show d < 0x80000000 from hlt), if_pos hlt, toInt_toBitVec32, if_pos hlt]
      · rw [if_neg (show ¬d < 0x80000000 from hlt), if_neg hlt]
  | ⟨sign, d :: d' :: digits⟩, h =>
    have hlarge := h.le_magnitude Nat.one_pos (Nat.le_add_left 1 digits.length)
    refine signed_exact_iff rfl rfl (fun _ => ?_) (fun _ => ?_)
    · exact (if_neg (show ¬magnitude (d :: d' :: digits) ≤ 2 ^ 31 by omega)).symm
    · exact (if_neg (show ¬magnitude (d :: d' :: digits) < 2 ^ 31 by omega)).symm

theorem toInt64_exact_iff (o : Overflow) (h : WellSized z) :
    Exact o .int64 z ↔ ¬Overflows o .int64 z.value := by
  match z, h with
  | ⟨sign, []⟩, _ =>
    refine signed_exact_iff rfl magnitude_nil (fun _ => ?_) (fun _ => ?_)
    · simp [FixedInt.convert, Integer.toInt64, FixedInt.width]
    · simp [FixedInt.convert, Integer.toInt64, FixedInt.width]
  | ⟨sign, [d]⟩, _ =>
    have hd := d.toNat_lt
    refine signed_exact_iff rfl (magnitude_one d) (fun hsign => ?_) (fun hsign => ?_)
    · obtain rfl : sign = true := hsign
      show some (some (-(d.toNat : Int))) = if d.toNat ≤ 2 ^ 63 then
          (if o = .undefined ∧ d.toNat = 2 ^ 63 then none else some (-(d.toNat : Int))).map some
        else some none
      rw [if_pos (by omega), if_neg (by omega)]
      rfl
    · obtain rfl : sign = false := hsign
      exact (if_pos (show d.toNat < 2 ^ 63 by omega)).symm
  | ⟨sign, [d, d']⟩, _ =>
    refine signed_exact_iff rfl (join_toNat d d').symm (fun hsign => ?_) (fun hsign => ?_)
    · obtain rfl : sign = true := hsign
      show (if (d.toUInt64 <<< 32) + d'.toUInt64 ≤ 0x8000000000000000 then
          (negate o INT64_MIN ((d.toUInt64 <<< 32) + d'.toUInt64).toBitVec.toInt).map some
        else some none) = _
      generalize (d.toUInt64 <<< 32) + d'.toUInt64 = un
      by_cases hle : un.toNat ≤ 2 ^ 63
      · rw [if_pos (show un ≤ 0x8000000000000000 from hle)]
        refine Eq.trans ?_ (if_pos (show un.toNat ≤ 2 ^ 63 from hle)).symm
        exact congrArg _ (negate_cast o (toInt_toBitVec64 un) hle)
      · rw [if_neg (show ¬un ≤ 0x8000000000000000 from hle)]
        exact (if_neg (show ¬un.toNat ≤ 2 ^ 63 from hle)).symm
    · obtain rfl : sign = false := hsign
      show (if (d.toUInt64 <<< 32) + d'.toUInt64 ≤ 0x7fffffffffffffff then
          some (some ((d.toUInt64 <<< 32) + d'.toUInt64).toBitVec.toInt) else some none) = _
      generalize (d.toUInt64 <<< 32) + d'.toUInt64 = un
      by_cases hlt : un.toNat < 2 ^ 63
      · have hle : un ≤ 0x7fffffffffffffff := Nat.le_of_lt_succ hlt
        rw [if_pos hle, toInt_toBitVec64, if_pos hlt]
        exact (if_pos (show un.toNat < 2 ^ 63 from hlt)).symm
      · have hlarge : ¬un ≤ 0x7fffffffffffffff := fun hle => hlt (Nat.lt_succ_of_le hle)
        rw [if_neg hlarge]
        exact (if_neg (show ¬un.toNat < 2 ^ 63 from hlt)).symm
  | ⟨sign, d :: d' :: d'' :: digits⟩, h =>
    have hlarge := h.le_magnitude Nat.two_pos (Nat.le_add_left 2 digits.length)
    refine signed_exact_iff rfl rfl (fun _ => ?_) (fun _ => ?_)
    · exact (if_neg (show ¬magnitude (d :: d' :: d'' :: digits) ≤ 2 ^ 63 by omega)).symm
    · exact (if_neg (show ¬magnitude (d :: d' :: d'' :: digits) < 2 ^ 63 by omega)).symm

theorem toUInt32_exact_iff (o : Overflow) (h : WellSized z) :
    Exact o .uint32 z ↔ ¬DropsSign .uint32 z.value := by
  match z, h with
  | ⟨sign, []⟩, _ => exact unsigned_exact_iff rfl magnitude_nil rfl
  | ⟨sign, [d]⟩, _ =>
    refine unsigned_exact_iff rfl (magnitude_one d) ?_
    exact (if_pos (show d.toNat < 2 ^ 32 from d.toNat_lt)).symm
  | ⟨sign, d :: d' :: digits⟩, h =>
    have hlarge := h.le_magnitude Nat.one_pos (Nat.le_add_left 1 digits.length)
    refine unsigned_exact_iff rfl rfl ?_
    exact (if_neg (show ¬magnitude (d :: d' :: digits) < 2 ^ 32 by omega)).symm

theorem toUInt64_exact_iff (o : Overflow) (h : WellSized z) :
    Exact o .uint64 z ↔ ¬DropsSign .uint64 z.value := by
  match z, h with
  | ⟨sign, []⟩, _ => exact unsigned_exact_iff rfl magnitude_nil rfl
  | ⟨sign, [d]⟩, _ =>
    have hd := d.toNat_lt
    refine unsigned_exact_iff rfl (magnitude_one d) ?_
    refine Eq.trans ?_ (if_pos (show d.toNat < 2 ^ 64 by omega)).symm
    exact congrArg (fun k : Nat => some (some (k : Int))) (UInt32.toNat_toUInt64 d)
  | ⟨sign, [d, d']⟩, _ =>
    refine unsigned_exact_iff rfl (join_toNat d d').symm ?_
    exact (if_pos (UInt64.toNat_lt ((d.toUInt64 <<< 32) + d'.toUInt64))).symm
  | ⟨sign, d :: d' :: d'' :: digits⟩, h =>
    have hlarge := h.le_magnitude Nat.two_pos (Nat.le_add_left 2 digits.length)
    refine unsigned_exact_iff rfl rfl ?_
    exact (if_neg (show ¬magnitude (d :: d' :: d'' :: digits) < 2 ^ 64 by omega)).symm

theorem exact_iff (o : Overflow) (T : FixedInt) (h : WellSized z) :
    Exact o T z ↔ ¬DropsSign T z.value ∧ ¬Overflows o T z.value := by
  have hsigned (hT : T.signed = true) : ¬DropsSign T z.value := by
    rintro ⟨hfalse, -⟩
    rw [hT] at hfalse
    cases hfalse
  have hunsigned (hT : T.signed = false) : ¬Overflows o T z.value := by
    rintro ⟨-, htrue, -⟩
    rw [hT] at htrue
    cases htrue
  cases T with
  | int32 => exact (toInt32_exact_iff o h).trans (and_iff_right (hsigned rfl)).symm
  | int64 => exact (toInt64_exact_iff o h).trans (and_iff_right (hsigned rfl)).symm
  | uint32 => exact (toUInt32_exact_iff o h).trans (and_iff_left (hunsigned rfl)).symm
  | uint64 => exact (toUInt64_exact_iff o h).trans (and_iff_left (hunsigned rfl)).symm

/-! ## Exact constructors -/

theorem absolute_spec (hlo : -2 ^ k ≤ n) (hhi : n < 2 ^ k) :
    match absolute o (-2 ^ k) n with
    | none => o = .undefined ∧ n = -2 ^ k
    | some a => ¬(o = .undefined ∧ n = -2 ^ k) ∧ (BitVec.ofInt (k + 1) a).toNat = n.natAbs := by
  have hpow : ((2 ^ (k + 1) : Nat) : Int) = 2 * 2 ^ k := by
    rw [Nat.pow_succ, Nat.mul_comm]
    simp
  unfold absolute negate
  by_cases hneg : n < 0
  · rw [if_pos hneg]
    by_cases hleast : n = -2 ^ k
    · rw [if_pos hleast]
      cases o with
      | undefined => exact ⟨rfl, hleast⟩
      | wraps =>
        refine ⟨fun hboth => Overflow.noConfusion hboth.1, ?_⟩
        rw [BitVec.toNat_ofInt, hpow, hleast]
        have hmod : (-2 ^ k : Int) % (2 * 2 ^ k) = 2 ^ k := by
          rw [← Int.add_mul_emod_self_right (-2 ^ k : Int) 1 (2 * 2 ^ k), Int.emod_eq_of_lt]
          · omega
          · omega
          · omega
        rw [hmod]
        omega
    · rw [if_neg hleast]
      refine ⟨fun hboth => hleast hboth.2, ?_⟩
      rw [BitVec.toNat_ofInt, hpow, Int.emod_eq_of_lt (by omega) (by omega)]
      omega
  · rw [if_neg hneg]
    refine ⟨by omega, ?_⟩
    rw [BitVec.toNat_ofInt, hpow, Int.emod_eq_of_lt (by omega) (by omega)]
    omega

theorem digits64_magnitude (n : UInt64) : magnitude (digits64 n) = n.toNat := by
  unfold digits64
  split
  · rename_i hlt
    have hsmall : n.toNat < 2 ^ 32 := hlt
    rw [magnitude_one, UInt64.toNat_toUInt32]
    exact Nat.mod_eq_of_lt hsmall
  · have hn := n.toNat_lt
    have hhigh : (n >>> 32).toUInt32.toNat = n.toNat / 2 ^ 32 := by
      rw [UInt64.toNat_toUInt32, UInt64.toNat_shiftRight]
      show n.toNat >>> 32 % 2 ^ 32 = n.toNat / 2 ^ 32
      rw [Nat.shiftRight_eq_div_pow]
      omega
    rw [magnitude_two, hhigh, UInt64.toNat_toUInt32]
    omega

theorem digits64_normalised {n : UInt64} (h : n ≠ 0) : Normalised (digits64 n) := by
  have hn : n.toNat ≠ 0 := fun hzero => h (UInt64.toNat_inj.mp hzero)
  have hmagnitude := digits64_magnitude n
  unfold digits64 at hmagnitude ⊢
  split
  · rename_i hlt
    rw [if_pos hlt] at hmagnitude
    rw [normalised_iff, hmagnitude]
    show 1 ≤ n.toNat
    omega
  · rename_i hge
    rw [if_neg hge] at hmagnitude
    rw [normalised_iff, hmagnitude]
    exact Nat.not_lt.mp hge

theorem digit_normalised {d : UInt32} (h : d ≠ 0) : Normalised [d] := by
  rintro e ⟨rfl⟩
  exact h

theorem value_of_natAbs {digits : List UInt32} (h : magnitude digits = n.natAbs) :
    Integer.value ⟨decide (n < 0), digits⟩ = n := by
  unfold Integer.value
  rw [h]
  by_cases hneg : n < 0
  · rw [if_pos (decide_eq_true hneg)]
    omega
  · rw [if_neg (by simpa using hneg)]
    omega

def Constructs (o : Overflow) (T : FixedInt) (n : Int) : Option Integer → Prop
  | none => Overflows o T n
  | some z =>
    ¬Overflows o T n ∧ z.sign = decide (n < 0) ∧ z.value = n ∧ Normalised z.digits

theorem toInt_ofInt (hlo : -2 ^ k ≤ n) (hhi : n < 2 ^ k) : (BitVec.ofInt (k + 1) n).toInt = n := by
  have hpow : ((2 ^ (k + 1) : Nat) : Int) = 2 * 2 ^ k := by
    rw [Nat.pow_succ, Nat.mul_comm]
    simp
  rw [BitVec.toInt_ofInt, Int.bmod_eq_of_le]
  · rw [hpow]
    omega
  · rw [hpow]
    omega

theorem signed_constructs (hT : T.signed = true) (hk : T.width = k + 1) (h : T.Holds n)
    {f : BitVec (k + 1) → List UInt32} (hmagnitude : ∀ x, magnitude (f x) = x.toNat)
    (hnormal : ∀ x, x.toNat ≠ 0 → Normalised (f x)) :
    Constructs o T n (if BitVec.ofInt (k + 1) n ≠ 0 then do
      let a ← absolute o (-2 ^ k) (BitVec.ofInt (k + 1) n).toInt
      some ⟨decide ((BitVec.ofInt (k + 1) n).toInt < 0), f (BitVec.ofInt (k + 1) a)⟩
    else some ⟨decide ((BitVec.ofInt (k + 1) n).toInt < 0), []⟩) := by
  obtain ⟨hlo, hhi⟩ := (FixedInt.holds_signed hT n).mp h
  rw [hk, Nat.add_sub_cancel] at hlo hhi
  have hinput := toInt_ofInt hlo hhi
  have hover : Overflows o T n ↔ o = .undefined ∧ n = -2 ^ k := by
    rw [Overflows, hk, Nat.add_sub_cancel, and_iff_right hT]
  rw [hinput]
  by_cases hzero : n = 0
  · have hcast : ((2 ^ k : Nat) : Int) = 2 ^ k := by simp
    rw [if_neg (by rw [hzero]; simp)]
    refine ⟨fun hboth => ?_, rfl, value_of_natAbs (by rw [hzero]; rfl), normalised_nil⟩
    have hleast := (hover.mp hboth).2
    omega
  · rw [if_pos fun hbits => hzero (by rw [← hinput, hbits]; simp)]
    have habs := absolute_spec (o := o) hlo hhi
    cases hresult : absolute o (-2 ^ k) n with
    | none =>
      rw [hresult] at habs
      exact hover.mpr habs
    | some a =>
      rw [hresult] at habs
      obtain ⟨hdefined, hnat⟩ := habs
      refine ⟨fun hboth => hdefined (hover.mp hboth), rfl, value_of_natAbs ?_, hnormal _ ?_⟩
      · rw [hmagnitude, hnat]
      · rw [hnat]
        omega

theorem ofUInt32_constructs (o : Overflow) (h : FixedInt.uint32.Holds n) :
    Constructs o .uint32 n (FixedInt.uint32.construct o n) := by
  obtain ⟨hlo, hhi⟩ := (FixedInt.holds_unsigned rfl n).mp h
  have hnat : ((UInt32.ofBitVec (BitVec.ofInt 32 n)).toNat : Int) = n := by
    show ((BitVec.ofInt 32 n).toNat : Int) = n
    rw [BitVec.toNat_ofInt]
    simp only [FixedInt.width] at hhi
    omega
  show _ ∧ false = decide (n < 0) ∧ Integer.value (Integer.ofUInt32 _) = n ∧ Normalised (Integer.ofUInt32 _).digits
  generalize UInt32.ofBitVec (BitVec.ofInt 32 n) = x at hnat
  refine ⟨fun hboth => Bool.false_ne_true hboth.2.1, ?_, ?_⟩
  · exact (decide_eq_false (Int.not_lt.mpr hlo)).symm
  unfold Integer.ofUInt32
  by_cases hzero : x = 0
  · rw [if_neg (not_not.mpr hzero), Integer.value_nonneg rfl]
    refine ⟨?_, normalised_nil⟩
    rw [← hnat, hzero]
    rfl
  · rw [if_pos hzero, Integer.value_nonneg rfl]
    exact ⟨by rw [magnitude_one, hnat], digit_normalised hzero⟩

theorem ofUInt64_constructs (o : Overflow) (h : FixedInt.uint64.Holds n) :
    Constructs o .uint64 n (FixedInt.uint64.construct o n) := by
  obtain ⟨hlo, hhi⟩ := (FixedInt.holds_unsigned rfl n).mp h
  have hnat : ((UInt64.ofBitVec (BitVec.ofInt 64 n)).toNat : Int) = n := by
    show ((BitVec.ofInt 64 n).toNat : Int) = n
    rw [BitVec.toNat_ofInt]
    simp only [FixedInt.width] at hhi
    omega
  show _ ∧ false = decide (n < 0) ∧ Integer.value (Integer.ofUInt64 _) = n ∧ Normalised (Integer.ofUInt64 _).digits
  generalize UInt64.ofBitVec (BitVec.ofInt 64 n) = x at hnat
  refine ⟨fun hboth => Bool.false_ne_true hboth.2.1, ?_, ?_⟩
  · exact (decide_eq_false (Int.not_lt.mpr hlo)).symm
  unfold Integer.ofUInt64
  by_cases hzero : x = 0
  · rw [if_neg (not_not.mpr hzero), Integer.value_nonneg rfl]
    refine ⟨?_, normalised_nil⟩
    rw [← hnat, hzero]
    rfl
  · rw [if_pos hzero, Integer.value_nonneg rfl]
    exact ⟨by rw [digits64_magnitude, hnat], digits64_normalised hzero⟩

theorem construct_constructs (o : Overflow) (h : T.Holds n) :
    Constructs o T n (T.construct o n) := by
  cases T with
  | int32 =>
    refine signed_constructs rfl rfl h (f := fun x => [UInt32.ofBitVec x]) ?_ ?_
    · exact fun x => magnitude_one (UInt32.ofBitVec x)
    · exact fun x hx => digit_normalised fun hzero => hx (congrArg UInt32.toNat hzero)
  | int64 =>
    refine signed_constructs rfl rfl h (f := fun x => digits64 (UInt64.ofBitVec x)) ?_ ?_
    · exact fun x => digits64_magnitude (UInt64.ofBitVec x)
    · exact fun x hx => digits64_normalised fun hzero => hx (congrArg UInt64.toNat hzero)
  | uint32 => exact ofUInt32_constructs o h
  | uint64 => exact ofUInt64_constructs o h

theorem le_groupsFrom (acc : Nat) (groups : Bytes) :
    acc * 2 ^ (7 * groups.length) ≤ groupsFrom acc groups := by
  induction groups generalizing acc with
  | nil => exact Nat.le_of_eq (Nat.mul_one acc)
  | cons g groups ih =>
    refine Nat.le_trans ?_ (ih (acc * 2 ^ 7 + g.toNat))
    rw [List.length_cons, Nat.mul_succ, Nat.pow_add, Nat.mul_comm (2 ^ _), ← Nat.mul_assoc]
    exact Nat.mul_le_mul_right _ (Nat.le_add_right _ _)

theorem MinimalEncoding.le_magnitude {bytes : Bytes} (h : MinimalEncoding bytes)
    (hpos : 0 < encodedBits bytes) : 2 ^ (encodedBits bytes - 1) ≤ encodedMagnitude bytes := by
  obtain ⟨hencoding, hminimal⟩ := h
  cases bytes with
  | nil => exact hencoding.elim
  | cons b rest =>
    obtain ⟨-, -, hfirst⟩ := firstBits_spec (b &&& 0x3f) (valueBits_lt b)
    simp only [encodedBits] at hpos ⊢
    by_cases hbits : firstBits (b &&& 0x3f) = 0
    · rcases hminimal with hone | hlarge
      · rw [List.length_cons] at hone
        omega
      · rw [hbits, Nat.add_zero, Nat.mul_comm]
        exact hlarge
    · have hle := le_groupsFrom (b &&& 0x3f).toNat (rest.map (· &&& 0x7f))
      rw [List.length_map] at hle
      refine Nat.le_trans ?_ hle
      have hexp : rest.length * 7 + firstBits (b &&& 0x3f) - 1 =
          (firstBits (b &&& 0x3f) - 1) + 7 * rest.length := by omega
      rw [hexp, Nat.pow_add]
      exact Nat.mul_le_mul_right _ (hfirst (Nat.pos_of_ne_zero hbits))

theorem ofStream_normalised {bytes : Bytes} (h : MinimalEncoding bytes)
    (hz : Decodes Integer.ofStream bytes (some z)) : Normalised z.digits := by
  obtain ⟨-, hdigits⟩ := ofStream_digits h.1 hz
  by_cases hpos : 0 < castInt (encodedBits bytes)
  · rw [if_pos hpos] at hdigits
    obtain ⟨-, hmagnitude, hlength⟩ := hdigits
    rw [normalised_of_length hlength, hmagnitude]
    refine Nat.le_trans ?_ (h.le_magnitude (castInt_pos hpos).1)
    exact Nat.pow_le_pow_right Nat.two_pos (Nat.mul_div_le _ _)
  · rw [if_neg hpos] at hdigits
    rw [hdigits]
    exact normalised_nil

theorem Producer.Makes.wellSized {p : Producer} (hz : p.Makes o z) (h : p.Minimal) :
    WellSized z := by
  cases p with
  | default => exact Or.inr hz
  | fixed T n =>
    obtain ⟨hn, hmakes⟩ := hz
    have hconstructs := construct_constructs o hn
    rw [hmakes] at hconstructs
    exact Or.inl hconstructs.2.2.2
  | stream bytes => exact Or.inl (ofStream_normalised h hz.2)

def FixedInt.RoundTrips (o : Overflow) (T : FixedInt) (n : Int) : Prop :=
  (T.construct o n).bind (T.convert o) = some (some n)

theorem FixedInt.roundTrips_iff (o : Overflow) (h : T.Holds n) :
    T.RoundTrips o n ↔ ¬Overflows o T n := by
  have hconstructs := construct_constructs o h
  unfold RoundTrips
  cases hmake : T.construct o n with
  | none =>
    rw [hmake] at hconstructs
    rw [Option.bind_none]
    refine iff_of_false (fun hsame => ?_) (not_not.mpr hconstructs)
    cases hsame
  | some z =>
    rw [hmake] at hconstructs
    obtain ⟨hdefined, -, hvalue, hnormal⟩ := hconstructs
    refine iff_of_true ?_ hdefined
    have hsigned : ¬DropsSign T n := by
      rintro ⟨hT, hneg, -⟩
      have hnonneg := ((holds_unsigned hT n).mp h).1
      omega
    have hexact : Exact o T z := by
      rw [exact_iff o T (Or.inl hnormal), hvalue]
      exact ⟨hsigned, hdefined⟩
    unfold Exact at hexact
    rw [hvalue, if_pos h] at hexact
    exact hexact

/-- Conversions are exact where no sign is dropped and no negation overflows. -/
theorem conversions_exact_iff (o : Overflow) (T : FixedInt) :
    (∀ (p : Producer) (z : Integer), p.Minimal → p.Makes o z →
        (Exact o T z ↔ ¬DropsSign T z.value ∧ ¬Overflows o T z.value)) ∧
      ∀ n, T.Holds n → (T.RoundTrips o n ↔ ¬Overflows o T n) :=
  ⟨fun _ _ hminimal hz => exact_iff o T (hz.wellSized hminimal),
    fun _ hn => T.roundTrips_iff o hn⟩

theorem conversions_exact_five :
    Exact .undefined .int32 ⟨false, [5]⟩ ∧ FixedInt.int32.RoundTrips .undefined 5 := by
  have hmakes : (Producer.fixed .int32 5).Makes .undefined ⟨false, [5]⟩ := ⟨by decide, by decide⟩
  refine ⟨?_, ?_⟩
  · refine ((conversions_exact_iff .undefined .int32).1 (.fixed .int32 5) _ trivial hmakes).mpr ?_
    exact ⟨fun hdrops => Bool.false_ne_true hdrops.1.symm, fun hover => absurd hover.2.2 (by decide)⟩
  · refine ((conversions_exact_iff .undefined .int32).2 5 (by decide)).mpr ?_
    exact fun hover => absurd hover.2.2 (by decide)

/-- Minus one fits an unsigned type and is stored as one. -/
theorem minus_one_to_uint32 :
    (Producer.fixed .int32 (-1)).Makes .undefined ⟨true, [1]⟩ ∧
      ¬FixedInt.uint32.Holds (Integer.value ⟨true, [1]⟩) ∧
      FixedInt.uint32.convert .undefined ⟨true, [1]⟩ = some (some 1) ∧
      ¬Exact .undefined .uint32 ⟨true, [1]⟩ := by
  refine ⟨⟨by decide, by decide⟩, by decide, by decide, ?_⟩
  unfold Exact
  decide

end SmlnjLlvm.Asdl
