import SmlnjLlvm.Asdl.IntegerConversion

/-!
# Equality of multiprecision integers

Signs, numbers of digits and digits are compared, so equality is the equality of
the numbers as far as equal numbers come with the same sign and as many digits.
-/

namespace SmlnjLlvm.Asdl

open ByteDecoder

def compareDigits (differ : Bool) : List UInt32 → List UInt32 → Bool
  | d :: ds, e :: es => if d ≠ e then differ else compareDigits differ ds es
  | _, _ => !differ

def compareIntegers (differ : Bool) (a b : Integer) : Bool :=
  if a.sign ≠ b.sign ∨ a.digits.length ≠ b.digits.length then differ
  else compareDigits differ a.digits b.digits

def Integer.eq (a b : Integer) : Bool := compareIntegers false a b

def Integer.ne (a b : Integer) : Bool := compareIntegers true a b

theorem compareDigits_eq (differ : Bool) {ds es : List UInt32} (h : ds.length = es.length) :
    compareDigits differ ds es = if ds = es then !differ else differ := by
  induction ds generalizing es with
  | nil =>
    cases es with
    | nil => rfl
    | cons e es => cases h
  | cons d ds ih =>
    cases es with
    | nil => cases h
    | cons e es =>
      unfold compareDigits
      by_cases hfirst : d = e
      · rw [if_neg (not_not.mpr hfirst), ih (Nat.succ.inj h), hfirst]
        simp only [List.cons.injEq, true_and]
      · rw [if_pos hfirst, if_neg fun hsame => hfirst (List.cons.inj hsame).1]

theorem compareIntegers_eq (differ : Bool) (a b : Integer) :
    compareIntegers differ a b = if a = b then !differ else differ := by
  unfold compareIntegers
  by_cases hshape : a.sign = b.sign ∧ a.digits.length = b.digits.length
  · obtain ⟨hsign, hlength⟩ := hshape
    rw [if_neg (by simp [hsign, hlength]), compareDigits_eq differ hlength]
    cases a
    cases b
    simp only at hsign
    simp only [Integer.mk.injEq, hsign, true_and]
  · rw [if_pos (by simpa only [not_and_or] using hshape)]
    rw [if_neg]
    rintro rfl
    exact hshape ⟨rfl, rfl⟩

theorem Integer.eq_iff (a b : Integer) : a.eq b = true ↔ a = b := by
  rw [Integer.eq, compareIntegers_eq]
  simp

theorem Integer.ne_eq_not_eq (a b : Integer) : a.ne b = !a.eq b := by
  rw [Integer.ne, Integer.eq, compareIntegers_eq, compareIntegers_eq]
  split <;> rfl

theorem magnitude_injective {ds es : List UInt32} (hlength : ds.length = es.length)
    (h : magnitude ds = magnitude es) : ds = es := by
  induction ds generalizing es with
  | nil =>
    cases es with
    | nil => rfl
    | cons e es => cases hlength
  | cons d ds ih =>
    cases es with
    | nil => cases hlength
    | cons e es =>
      have htail : ds.length = es.length := Nat.succ.inj hlength
      have hds := magnitude_lt ds
      have hes := magnitude_lt es
      rw [magnitude_cons, magnitude_cons, htail] at h
      rw [htail] at hds
      have hpos := Nat.two_pow_pos (32 * es.length)
      -- Digit and rest are quotient and remainder by the power of the length.
      have hfirst : d.toNat = e.toNat := by
        have hdiv := congrArg (· / 2 ^ (32 * es.length)) h
        simpa only [Nat.mul_comm _ (2 ^ (32 * es.length)), Nat.mul_add_div hpos,
          Nat.div_eq_of_lt hds, Nat.div_eq_of_lt hes, Nat.add_zero] using hdiv
      have hrest : magnitude ds = magnitude es := by
        rw [hfirst] at h
        exact Nat.add_left_cancel h
      rw [UInt32.toNat_inj.mp hfirst, ih htail hrest]

theorem Integer.eq_of_value {a b : Integer} (hsign : a.sign = b.sign)
    (hlength : a.digits.length = b.digits.length) (h : a.value = b.value) : a = b := by
  have hmagnitude : magnitude a.digits = magnitude b.digits := by
    unfold Integer.value at h
    rw [hsign] at h
    split at h
    · exact Int.natCast_inj.mp (Int.neg_inj.mp h)
    · exact Int.natCast_inj.mp h
  cases a
  cases b
  simp only [Integer.mk.injEq]
  exact ⟨hsign, magnitude_injective hlength hmagnitude⟩

def Producer.sign : Producer → Bool
  | default => false
  | fixed _ n => decide (n < 0)
  | stream bytes => encodedSign bytes

def Producer.digitCount : Producer → Nat
  | default => 1
  | fixed _ n => if n = 0 then 0 else if n.natAbs < 2 ^ 32 then 1 else 2
  | stream bytes => if 0 < castInt (encodedBits bytes) then (encodedBits bytes - 1) / 32 + 1 else 0

theorem Normalised.length_eq {digits : List UInt32} (h : Normalised digits)
    (hlt : magnitude digits < 2 ^ 64) :
    digits.length = if magnitude digits = 0 then 0 else if magnitude digits < 2 ^ 32 then 1 else 2 := by
  match digits, h with
  | [], _ => rfl
  | [d], h =>
    have hlarge : 2 ^ 0 ≤ magnitude [d] := normalised_iff.mp h
    have hsmall : magnitude [d] < 2 ^ 32 := magnitude_lt [d]
    rw [if_neg (by omega), if_pos hsmall]
    rfl
  | [d, e], h =>
    have hlarge : 2 ^ 32 ≤ magnitude [d, e] := normalised_iff.mp h
    rw [if_neg (by omega), if_neg (by omega)]
    rfl
  | d :: e :: f :: rest, h =>
    have hlarge := normalised_iff.mp h
    have hpow : 2 ^ 64 ≤ 2 ^ (32 * (e :: f :: rest).length) := by
      apply Nat.pow_le_pow_right Nat.two_pos
      simp only [List.length_cons]
      omega
    omega

theorem FixedInt.Holds.natAbs_lt {T : FixedInt} {n : Int} (h : T.Holds n) : n.natAbs < 2 ^ 64 := by
  cases T
  all_goals
    simp only [Holds, signed, width, if_true, Bool.false_eq_true, if_false] at h
    omega

theorem Integer.value_natAbs (z : Integer) : z.value.natAbs = magnitude z.digits := by
  unfold Integer.value
  split
  · rw [Int.natAbs_neg, Int.natAbs_natCast]
  · rw [Int.natAbs_natCast]

theorem Producer.Makes.shape {o : Overflow} {p : Producer} {z : Integer} (hz : p.Makes o z) :
    z.sign = p.sign ∧ z.digits.length = p.digitCount := by
  cases p with
  | default =>
    obtain rfl : z = Integer.default := hz
    exact ⟨rfl, rfl⟩
  | fixed T n =>
    obtain ⟨hn, hmakes⟩ := hz
    have hconstructs := construct_constructs o hn
    rw [hmakes] at hconstructs
    obtain ⟨-, hsign, hvalue, hnormal⟩ := hconstructs
    have hmagnitude : magnitude z.digits = n.natAbs := by rw [← z.value_natAbs, hvalue]
    refine ⟨hsign, ?_⟩
    have hlength := hnormal.length_eq (by rw [hmagnitude]; exact hn.natAbs_lt)
    rw [hmagnitude] at hlength
    simpa only [digitCount, Int.natAbs_eq_zero] using hlength
  | stream bytes =>
    obtain ⟨hencoding, hdecodes⟩ := hz
    obtain ⟨hsign, hdigits⟩ := ofStream_digits hencoding hdecodes
    refine ⟨hsign, ?_⟩
    simp only [digitCount]
    by_cases hpos : 0 < castInt (encodedBits bytes)
    · rw [if_pos hpos] at hdigits ⊢
      exact hdigits.2.2
    · rw [if_neg hpos] at hdigits ⊢
      rw [hdigits]
      rfl

/-- Equal numbers are equal integers if and only if they are produced in the same shape. -/
theorem eq_value_iff {o : Overflow} {p q : Producer} {a b : Integer} (ha : p.Makes o a)
    (hb : q.Makes o b) :
    ((a.eq b = true ↔ a.value = b.value) ∧ a.ne b = !a.eq b) ↔
      (a.value = b.value → p.sign = q.sign ∧ p.digitCount = q.digitCount) := by
  obtain ⟨hasign, halength⟩ := ha.shape
  obtain ⟨hbsign, hblength⟩ := hb.shape
  rw [and_iff_left (a.ne_eq_not_eq b), Integer.eq_iff, ← hasign, ← hbsign, ← halength, ← hblength]
  constructor
  · intro hlaw hvalue
    have hsame := hlaw.mpr hvalue
    rw [hsame]
    exact ⟨rfl, rfl⟩
  · intro hshape
    constructor
    · exact fun hsame => congrArg Integer.value hsame
    · intro hvalue
      obtain ⟨hsign, hlength⟩ := hshape hvalue
      exact Integer.eq_of_value hsign hlength hvalue

theorem eq_five_from_stream :
    (Integer.eq ⟨false, [5]⟩ ⟨false, [5]⟩ = true ↔
      Integer.value ⟨false, [5]⟩ = Integer.value ⟨false, [5]⟩) := by
  have hfixed : (Producer.fixed .int32 5).Makes .undefined ⟨false, [5]⟩ := ⟨by decide, by decide⟩
  have hstream : (Producer.stream [0x05]).Makes .undefined ⟨false, [5]⟩ := by
    have hencoding : IntegerEncoding [0x05] := rfl
    refine ⟨hencoding, ?_⟩
    exact ofStream_decodes hencoding
  exact ((eq_value_iff hfixed hstream).mpr fun _ => by decide).1

/-- The default integer is zero, with a digit that the constructors from numbers do not give. -/
theorem default_ne_zero :
    Producer.default.Makes .undefined Integer.default ∧
      (Producer.fixed .int32 0).Makes .undefined ⟨false, []⟩ ∧
      Integer.default.value = Integer.value ⟨false, []⟩ ∧
      Integer.default.eq ⟨false, []⟩ = false ∧ Integer.default.ne ⟨false, []⟩ = true :=
  ⟨rfl, ⟨by decide, by decide⟩, by decide, by decide, by decide⟩

end SmlnjLlvm.Asdl
