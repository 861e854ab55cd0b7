import Mathlib.Data.Nat.Log
import SmlnjLlvm.Support.APInt
import SmlnjLlvm.Support.KnuthDiv

/-!
# Division of integers of any width

The words of the operands are split into digits of 32 bits, which are divided
by Algorithm D or, where the divisor has one digit, by short division.
-/

namespace SmlnjLlvm.Support

open Digits

namespace APInt

/-- Two digits for each word, in memory that is cleared. -/
def splitWords (w : Words64) (n : Nat) : Digits32 :=
  upto (fun i (U : Digits32) =>
    Function.update (Function.update U (i * 2) (lo32 (w i))) (i * 2 + 1) (hi32 (w i))) n fun _ => 0

def joinWords (D : Digits32) (n : Nat) (w : Words64) : Words64 :=
  upto (fun i (w : Words64) => Function.update w i (make64 (D (i * 2 + 1)) (D (i * 2)))) n w

/-- Drops the zeros at the top of the divisor from `n`. -/
def stripDivisor (V : Digits32) : Nat → Nat × Nat → Nat × Nat
  | 0, s => s
  | i + 1, (n, m) => if V i = 0 then stripDivisor V i (n - 1, m + 1) else (n, m)

/-- Drops the zeros at the top of the dividend from `m`, unless that falls below zero. -/
def stripDividend (U : Digits32) : Nat → Nat → Option Nat
  | 0, m => some m
  | i + 1, m =>
    if U i = 0 then
      match m with
      | 0 => none
      | m + 1 => stripDividend U i m
    else some m

/-- One digit of short division, with the remainder so far. -/
def shortStep (U : Digits32) (divisor : BitVec 32) (i : Nat) (s : Digits32 × BitVec 32) :
    Digits32 × BitVec 32 :=
  let (Q, remainder) := s
  let partial_dividend := make64 remainder (U i)
  if partial_dividend = 0 then (Function.update Q i 0, 0)
  else if partial_dividend < divisor.setWidth 64 then
    (Function.update Q i 0, lo32 partial_dividend)
  else if partial_dividend = divisor.setWidth 64 then (Function.update Q i 1, 0)
  else
    let Q := Function.update Q i (lo32 (partial_dividend / divisor.setWidth 64))
    (Q, lo32 (partial_dividend - (Q i * divisor).setWidth 64))

/--
Knuth's algorithm does not work for one digit. An `m` below zero leaves short
division no digits, and Knuth's algorithm digits outside its memory.
-/
def divideDigits (U V Q : Digits32) (R : Option Digits32) (m : Option Nat) (n : Nat) :
    Option (Digits32 × Option Digits32) :=
  if n = 1 then
    let (Q, remainder) := downFrom (shortStep U (V 0)) (m.elim 0 (· + 1)) (Q, 0)
    some (Q, R.map fun R => Function.update R 0 remainder)
  else do knuthDiv U V Q R (← m) n

/-- The memory for the results is not given where the caller does not want them. -/
def divide (LHS : Words64) (lhsWords : Nat) (RHS : Words64) (rhsWords : Nat)
    (Quotient Remainder : Option Words64) : Option (Option Words64 × Option Words64) := do
  guard (rhsWords ≤ lhsWords)
  let n := rhsWords * 2
  let m := lhsWords * 2 - n
  let U := Function.update (splitWords LHS lhsWords) (m + n) 0
  let V := splitWords RHS rhsWords
  let Q : Digits32 := fun _ => 0
  let R : Option Digits32 := Remainder.map fun _ _ => 0
  let (n, m) := stripDivisor V n (n, m)
  let m := stripDividend U (m + n) m
  guard (n ≠ 0)
  let (Q, R) ← divideDigits U V Q R m n
  some (Quotient.map (joinWords Q lhsWords),
    match Remainder, R with
    | some Remainder, some R => some (joinWords R rhsWords Remainder)
    | _, _ => none)

def udiv (A RHS : APInt) : Option APInt := do
  guard (A.BitWidth = RHS.BitWidth)
  if A.isSingleWord then
    guard (RHS.pVal 0 ≠ 0)
    return ofWord A.BitWidth (A.pVal 0 / RHS.pVal 0)
  let lhsWords := getNumWordsOf A.getActiveBits
  let rhsBits := RHS.getActiveBits
  let rhsWords := getNumWordsOf rhsBits
  guard (rhsWords ≠ 0)
  if lhsWords = 0 then return ofWord A.BitWidth 0
  if rhsBits = 1 then return A
  if lhsWords < rhsWords ∨ A.ult RHS then return ofWord A.BitWidth 0
  if A.eq RHS then return ofWord A.BitWidth 1
  if lhsWords = 1 then return ofWord A.BitWidth (A.pVal 0 / RHS.pVal 0)
  let Quotient := ofWord A.BitWidth 0
  let (quotient, _) ← divide A.pVal lhsWords RHS.pVal rhsWords (some Quotient.pVal) none
  return { Quotient with pVal := quotient.getD Quotient.pVal }

def urem (A RHS : APInt) : Option APInt := do
  guard (A.BitWidth = RHS.BitWidth)
  if A.isSingleWord then
    guard (RHS.pVal 0 ≠ 0)
    return ofWord A.BitWidth (A.pVal 0 % RHS.pVal 0)
  let lhsWords := getNumWordsOf A.getActiveBits
  let rhsBits := RHS.getActiveBits
  let rhsWords := getNumWordsOf rhsBits
  guard (rhsWords ≠ 0)
  if lhsWords = 0 then return ofWord A.BitWidth 0
  if rhsBits = 1 then return ofWord A.BitWidth 0
  if lhsWords < rhsWords ∨ A.ult RHS then return A
  if A.eq RHS then return ofWord A.BitWidth 0
  if lhsWords = 1 then return ofWord A.BitWidth (A.pVal 0 % RHS.pVal 0)
  let Remainder := ofWord A.BitWidth 0
  let (_, remainder) ← divide A.pVal lhsWords RHS.pVal rhsWords none (some Remainder.pVal)
  return { Remainder with pVal := remainder.getD Remainder.pVal }

/--
`Quotient` and `Remainder` are what the results are assigned to, and
`getMemory` and `getMemory'` what is in the memory that is allocated for them.
-/
def udivrem (getMemory getMemory' : Words64) (LHS RHS Quotient Remainder : APInt) :
    Option (APInt × APInt) := do
  guard (LHS.BitWidth = RHS.BitWidth)
  let BitWidth := LHS.BitWidth
  if LHS.isSingleWord then
    guard (RHS.pVal 0 ≠ 0)
    let QuotVal := LHS.pVal 0 / RHS.pVal 0
    let RemVal := LHS.pVal 0 % RHS.pVal 0
    return (ofWord BitWidth QuotVal, ofWord BitWidth RemVal)
  let lhsWords := getNumWordsOf LHS.getActiveBits
  let rhsBits := RHS.getActiveBits
  let rhsWords := getNumWordsOf rhsBits
  guard (rhsWords ≠ 0)
  if lhsWords = 0 then return (ofWord BitWidth 0, ofWord BitWidth 0)
  -- a divisor of one assigns the results and goes on
  let Quotient := if rhsBits = 1 then LHS else Quotient
  let Remainder := if rhsBits = 1 then ofWord BitWidth 0 else Remainder
  if lhsWords < rhsWords ∨ LHS.ult RHS then return (ofWord BitWidth 0, LHS)
  if LHS.eq RHS then return (ofWord BitWidth 1, ofWord BitWidth 0)
  let Quotient := reallocate getMemory BitWidth Quotient
  let Remainder := reallocate getMemory' BitWidth Remainder
  if lhsWords = 1 then
    let lhsValue := LHS.pVal 0
    let rhsValue := RHS.pVal 0
    return (assignWord Quotient (lhsValue / rhsValue), assignWord Remainder (lhsValue % rhsValue))
  let (quotient, remainder) ← divide LHS.pVal lhsWords RHS.pVal rhsWords (some Quotient.pVal)
    (some Remainder.pVal)
  return (
    { Quotient with
      pVal := clearWords (quotient.getD Quotient.pVal) lhsWords (getNumWordsOf BitWidth) },
    { Remainder with
      pVal := clearWords (remainder.getD Remainder.pVal) rhsWords (getNumWordsOf BitWidth) })

theorem splitWords_digits (w : Words64) (n : Nat) :
    (∀ i < n, splitWords w n (i * 2) = lo32 (w i) ∧ splitWords w n (i * 2 + 1) = hi32 (w i)) ∧
      ∀ k, n * 2 ≤ k → splitWords w n k = 0 := by
  refine upto_rule (fun n (U : Digits32) =>
    (∀ i < n, U (i * 2) = lo32 (w i) ∧ U (i * 2 + 1) = hi32 (w i)) ∧ ∀ k, n * 2 ≤ k → U k = 0)
    ⟨fun i hi => absurd hi (Nat.not_lt_zero i), fun _ _ => rfl⟩ ?_
  rintro n U _ ⟨hwords, hzero⟩
  refine ⟨?_, ?_⟩
  · intro i hi
    rcases Nat.eq_or_lt_of_le (Nat.le_of_lt_succ hi) with heq | hlt
    · rw [heq, Function.update_self, Function.update_of_ne (by omega), Function.update_self]
      exact ⟨rfl, rfl⟩
    · rw [Function.update_of_ne (by omega), Function.update_of_ne (by omega),
        Function.update_of_ne (by omega), Function.update_of_ne (by omega)]
      exact hwords i hlt
  · intro k hk
    rw [Function.update_of_ne (by omega), Function.update_of_ne (by omega)]
    exact hzero k (by omega)

variable {BitWidth lhsWords n rhsWords : Nat} {w : Words64}

theorem val_pairs {D : Digits32}
    (h : ∀ i < n, (w i).toNat = (D (i * 2)).toNat + 2 ^ 32 * (D (i * 2 + 1)).toNat) :
    digitsVal D 0 (n * 2) = wordsVal w n := by
  rw [Nat.mul_comm]
  apply value_pairs
  intro i hi
  rw [h i hi, Nat.zero_add, Nat.mul_comm i]

theorem splitWords_val (w : Words64) (n : Nat) :
    digitsVal (splitWords w n) 0 (n * 2) = wordsVal w n := by
  apply val_pairs
  intro i hi
  rw [((splitWords_digits w n).1 i hi).1, ((splitWords_digits w n).1 i hi).2, lo32_toNat,
    hi32_toNat, Nat.mod_add_div]

theorem joinWords_spec (D : Digits32) (n : Nat) (w : Words64) :
    wordsVal (joinWords D n w) n = digitsVal D 0 (n * 2) ∧
      ∀ i, n ≤ i → joinWords D n w i = w i := by
  have hwords : (∀ i < n, joinWords D n w i = make64 (D (i * 2 + 1)) (D (i * 2))) ∧
      ∀ i, n ≤ i → joinWords D n w i = w i := by
    refine upto_rule (fun n (w' : Words64) =>
      (∀ i < n, w' i = make64 (D (i * 2 + 1)) (D (i * 2))) ∧ ∀ i, n ≤ i → w' i = w i)
      ⟨fun i hi => absurd hi (Nat.not_lt_zero i), fun _ _ => rfl⟩ ?_
    rintro n w' _ ⟨hlow, hhigh⟩
    refine ⟨?_, ?_⟩
    · intro i hi
      rcases Nat.eq_or_lt_of_le (Nat.le_of_lt_succ hi) with heq | hlt
      · rw [heq, Function.update_self]
      · rw [Function.update_of_ne (by omega), hlow i hlt]
    · intro i hi
      rw [Function.update_of_ne (by omega), hhigh i (by omega)]
  refine ⟨?_, hwords.2⟩
  symm
  apply val_pairs
  intro i hi
  rw [hwords.1 i hi, make64_toNat, Nat.mul_comm, Nat.add_comm]

theorem stripDivisor_spec (V : Digits32) (i m : Nat) :
    ∃ n, stripDivisor V i (i, m) = (n, m + (i - n)) ∧ n ≤ i ∧
      (∀ k, n ≤ k → k < i → V k = 0) ∧ (n ≠ 0 → V (n - 1) ≠ 0) := by
  induction i generalizing m with
  | zero =>
    exact ⟨0, rfl, Nat.le_refl 0, fun k _ hk => absurd hk (Nat.not_lt_zero k),
      fun h => absurd rfl h⟩
  | succ i ih =>
    unfold stripDivisor
    by_cases hzero : V i = 0
    · rw [if_pos hzero, Nat.add_sub_cancel]
      obtain ⟨n, hn, hle, hzeros, htop⟩ := ih (m + 1)
      refine ⟨n, ?_, Nat.le_succ_of_le hle, ?_, htop⟩
      · rw [hn]
        congr 1
        omega
      · intro k hk hlt
        rcases Nat.eq_or_lt_of_le (Nat.le_of_lt_succ hlt) with heq | hlt'
        · rw [heq, hzero]
        · exact hzeros k hk hlt'
    · refine ⟨i + 1, ?_, Nat.le_refl _, fun k hk hlt => absurd hlt (Nat.not_lt.mpr hk),
        fun _ => hzero⟩
      rw [if_neg hzero, Nat.sub_self]
      rfl

theorem stripDividend_spec {U : Digits32} {m : Nat} (hn : 0 < n)
    (h : (2 ^ 32) ^ (n - 1) ≤ digitsVal U 0 (m + n)) :
    ∃ m', stripDividend U (m + n) m = some m' ∧ m' ≤ m ∧
      ∀ k, m' + n ≤ k → k < m + n → U k = 0 := by
  obtain ⟨l, rfl⟩ := Nat.exists_eq_succ_of_ne_zero (Nat.ne_of_gt hn)
  rw [Nat.succ_eq_add_one, Nat.add_sub_cancel] at *
  induction m with
  | zero =>
    have hne : U l ≠ 0 := by
      intro hzero
      rw [Nat.zero_add, digitsVal_succ, Nat.zero_add, hzero] at h
      have hlt := digitsVal_lt U 0 l
      change _ ≤ _ + 0 * _ at h
      omega
    refine ⟨0, ?_, Nat.le_refl 0, fun k hk hlt => absurd hlt (Nat.not_lt.mpr hk)⟩
    rw [Nat.zero_add]
    exact if_neg hne
  | succ m ih =>
    by_cases hzero : U (m + 1 + l) = 0
    · have hval : digitsVal U 0 (m + 1 + (l + 1)) = digitsVal U 0 (m + (l + 1)) := by
        have hlen : m + 1 + (l + 1) = m + (l + 1) + 1 := by omega
        have hlen' : m + 1 + l = m + (l + 1) := by omega
        rw [hlen'] at hzero
        rw [hlen, digitsVal_succ, Nat.zero_add, hzero]
        change _ + 0 * _ = _
        rw [Nat.zero_mul, Nat.add_zero]
      rw [hval] at h
      obtain ⟨m', hrun, hle, hzeros⟩ := ih h
      refine ⟨m', ?_, Nat.le_succ_of_le hle, ?_⟩
      · have hstep : stripDividend U (m + 1 + (l + 1)) (m + 1) =
            stripDividend U (m + 1 + l) m := if_pos hzero
        have hlen' : m + 1 + l = m + (l + 1) := by omega
        rw [hstep, hlen']
        exact hrun
      · intro k hk hlt
        by_cases heq : k = m + 1 + l
        · rw [heq, hzero]
        · exact hzeros k hk (by omega)
    · exact ⟨m + 1, if_neg hzero, Nat.le_refl _, fun k hk hlt => absurd hlt (Nat.not_lt.mpr hk)⟩

theorem stripDividend_none {U : Digits32} {m : Nat} (hn : 0 < n)
    (h : digitsVal U 0 (m + n) < (2 ^ 32) ^ (n - 1)) : stripDividend U (m + n) m = none := by
  have hzeros : ∀ i, n - 1 ≤ i → i < m + n → U i = 0 := by
    intro i hi hlt
    by_contra hne
    have hdigit := le_value (b := 2 ^ 32) (d := fun i => (U i).toNat) 0 hlt
    rw [Nat.zero_add] at hdigit
    have hpow : (2 ^ 32) ^ (n - 1) ≤ (U i).toNat * (2 ^ 32) ^ i :=
      Nat.le_trans (Nat.pow_le_pow_right (by decide) hi)
        (Nat.le_mul_of_pos_left _ (toNat_ne_zero.mp hne))
    exact Nat.not_lt.mpr (Nat.le_trans hpow hdigit) h
  obtain ⟨l, rfl⟩ := Nat.exists_eq_succ_of_ne_zero (Nat.ne_of_gt hn)
  clear h
  induction m with
  | zero =>
    rw [Nat.zero_add]
    exact if_pos (hzeros l (Nat.le_refl l) (by omega))
  | succ m ih =>
    have hstep : stripDividend U (m + 1 + (l + 1)) (m + 1) = stripDividend U (m + 1 + l) m :=
      if_pos (hzeros (m + 1 + l) (by simp) (by omega))
    have hlen : m + 1 + l = m + (l + 1) := by omega
    rw [Nat.succ_eq_add_one, hstep, hlen]
    exact ih fun i hi hlt => hzeros i hi (by omega)

theorem shortStep_spec (U Q : Digits32) {divisor remainder : BitVec 32} (i : Nat)
    (hlt : remainder.toNat < divisor.toNat) :
    let t := shortStep U divisor i (Q, remainder)
    let x := remainder.toNat * 2 ^ 32 + (U i).toNat
    ∃ y : BitVec 32, t.1 = Function.update Q i y ∧ y.toNat = x / divisor.toNat ∧
      t.2.toNat = x % divisor.toNat := by
  intro t x
  have hpos : 0 < divisor.toNat := Nat.lt_of_le_of_lt (Nat.zero_le _) hlt
  have hx : (make64 remainder (U i)).toNat = x := make64_toNat remainder (U i)
  have hquot : x / divisor.toNat < 2 ^ 32 := by
    have hmul := Nat.mul_le_mul_right (2 ^ 32) (Nat.succ_le_of_lt hlt)
    rw [Nat.div_lt_iff_lt_mul hpos, Nat.mul_comm (2 ^ 32)]
    omega
  change ∃ y, (shortStep U divisor i (Q, remainder)).1 = _ ∧ _ ∧
    (shortStep U divisor i (Q, remainder)).2.toNat = _
  unfold shortStep
  dsimp only
  generalize make64 remainder (U i) = partial_dividend at hx ⊢
  generalize x = x at hx hquot ⊢
  by_cases hzero : partial_dividend = 0
  · rw [if_pos hzero]
    rw [hzero] at hx
    refine ⟨0, rfl, ?_, ?_⟩
    · rw [← hx]
      exact (Nat.zero_div _).symm
    · rw [← hx]
      exact (Nat.zero_mod _).symm
  · rw [if_neg hzero]
    by_cases hsmall : partial_dividend < divisor.setWidth 64
    · rw [if_pos hsmall]
      rw [BitVec.lt_def, setWidth64_toNat, hx] at hsmall
      refine ⟨0, rfl, ?_, ?_⟩
      · exact (Nat.div_eq_of_lt hsmall).symm
      · rw [lo32_toNat, hx, Nat.mod_eq_of_lt hsmall]
        omega
    · rw [if_neg hsmall]
      by_cases heq : partial_dividend = divisor.setWidth 64
      · rw [if_pos heq]
        rw [heq, setWidth64_toNat] at hx
        refine ⟨1, rfl, ?_, ?_⟩
        · rw [← hx, Nat.div_self hpos]
          rfl
        · rw [← hx, Nat.mod_self]
          rfl
      · rw [if_neg heq]
        refine ⟨_, rfl, ?_, ?_⟩
        · rw [lo32_toNat, BitVec.toNat_udiv, hx, setWidth64_toNat, Nat.mod_eq_of_lt hquot]
        · have hdiv := Nat.div_add_mod x divisor.toNat
          have hmod := Nat.mod_lt x hpos
          rw [Function.update_self, lo32_toNat, BitVec.toNat_sub, setWidth64_toNat,
            BitVec.toNat_mul, lo32_toNat, BitVec.toNat_udiv, hx, setWidth64_toNat,
            Nat.mod_eq_of_lt hquot, Nat.mul_comm (x / divisor.toNat)]
          generalize divisor.toNat * (x / divisor.toNat) = P at hdiv ⊢
          omega

theorem shortSteps_spec (U Q : Digits32) {divisor : BitVec 32} (m : Nat) (hpos : divisor ≠ 0) :
    let t := downFrom (shortStep U divisor) (m + 1) (Q, 0)
    (digitsVal t.1 0 (m + 1) = digitsVal U 0 (m + 1) / divisor.toNat ∧
      t.2.toNat = digitsVal U 0 (m + 1) % divisor.toNat) ∧ ∀ i, m < i → t.1 i = Q i := by
  have hrule := downFrom_rule (fun i (t : Digits32 × BitVec 32) =>
    (digitsVal t.1 i (m + 1 - i) * divisor.toNat + t.2.toNat = digitsVal U i (m + 1 - i) ∧
      t.2.toNat < divisor.toNat) ∧ ∀ k, m < k → t.1 k = Q k)
    (f := shortStep U divisor) (n := m + 1) (s := (Q, 0))
    ⟨⟨?_, toNat_ne_zero.mp hpos⟩, fun _ _ => rfl⟩ ?_
  · generalize downFrom (shortStep U divisor) (m + 1) (Q, 0) = t at hrule ⊢
    obtain ⟨⟨hval, hlt⟩, hframe⟩ := hrule
    rw [Nat.sub_zero, Nat.mul_comm, Nat.add_comm] at hval
    obtain ⟨hdiv, hmod⟩ := (Nat.div_mod_unique (toNat_ne_zero.mp hpos)).mpr ⟨hval, hlt⟩
    exact ⟨⟨hdiv.symm, hmod.symm⟩, hframe⟩
  · rw [Nat.sub_self]
    change 0 * _ + 0 = 0
    rw [Nat.zero_mul]
  · rintro i ⟨Q', remainder⟩ hi ⟨⟨hval, hlt⟩, hframe⟩
    dsimp only at hval hlt hframe
    obtain ⟨y, hQ, hy, hrem⟩ := shortStep_spec U Q' i hlt
    refine ⟨⟨?_, ?_⟩, ?_⟩
    · have hlen : m + 1 - i = m + 1 - (i + 1) + 1 := by omega
      have hhigh : digitsVal (Function.update Q' i y) (i + 1) (m + 1 - (i + 1)) =
          digitsVal Q' (i + 1) (m + 1 - (i + 1)) := by
        apply digitsVal_congr
        intro l hl
        exact Function.update_of_ne (by omega) _ _
      rw [hQ, hrem, hlen, digitsVal_succ', digitsVal_succ' U, hhigh, Function.update_self, hy,
        ← hval]
      have hdiv := Nat.div_add_mod (remainder.toNat * 2 ^ 32 + (U i).toNat) divisor.toNat
      generalize (remainder.toNat * 2 ^ 32 + (U i).toNat) / divisor.toNat = q at hdiv ⊢
      generalize (remainder.toNat * 2 ^ 32 + (U i).toNat) % divisor.toNat = r at hdiv ⊢
      have hadd : (q + 2 ^ 32 * digitsVal Q' (i + 1) (m + 1 - (i + 1))) * divisor.toNat =
          divisor.toNat * q +
            2 ^ 32 * (digitsVal Q' (i + 1) (m + 1 - (i + 1)) * divisor.toNat) := by ring
      rw [hadd]
      omega
    · rw [hrem]
      exact Nat.mod_lt _ (toNat_ne_zero.mp hpos)
    · intro k hk
      rw [hQ, Function.update_of_ne (by omega), hframe k hk]

/-! ## Words -/

theorem divideDigits_spec (U V Q : Digits32) (R : Option Digits32) (m : Nat) (hn : n ≠ 0)
    (hV : V (n - 1) ≠ 0) :
    ∃ (Q' : Digits32) (rem : Digits32 → Digits32),
      divideDigits U V Q R (some m) n = some (Q', R.map rem) ∧
      (digitsVal Q' 0 (m + 1) = digitsVal U 0 (m + n) / digitsVal V 0 n ∧
        ∀ i, m < i → Q' i = Q i) ∧
      ∀ r, digitsVal (rem r) 0 n = digitsVal U 0 (m + n) % digitsVal V 0 n ∧
        ∀ i, n ≤ i → rem r i = r i := by
  unfold divideDigits
  by_cases hone : n = 1
  · rw [if_pos hone]
    rw [hone, Nat.sub_self] at hV
    have hval : ∀ D : Digits32, digitsVal D 0 1 = (D 0).toNat := fun D => value_one 0
    obtain ⟨⟨hquot, hrem⟩, hframe⟩ := shortSteps_spec U Q m hV
    rw [hone, hval V]
    refine ⟨_, _, rfl, ⟨hquot, hframe⟩, ?_⟩
    intro r
    refine ⟨?_, ?_⟩
    · rw [hval, Function.update_self]
      exact hrem
    · intro i hi
      exact Function.update_of_ne (by omega) _ _
  · rw [if_neg hone]
    exact knuthDiv_spec U V Q R m (by omega) hV

/-- What is stored where the caller wants the results. -/
def joinResults (lhsWords rhsWords : Nat) (Quotient Remainder : Option Words64)
    (t : Digits32 × Option Digits32) : Option Words64 × Option Words64 :=
  (Quotient.map (joinWords t.1 lhsWords),
    match Remainder, t.2 with
    | some Remainder, some R => some (joinWords R rhsWords Remainder)
    | _, _ => none)

theorem divide_run (LHS RHS : Words64) (Quotient Remainder : Option Words64)
    (hwords : rhsWords ≤ lhsWords) (hpos : 0 < wordsVal RHS rhsWords) :
    ∃ (U V : Digits32) (m n : Nat),
      divide LHS lhsWords RHS rhsWords Quotient Remainder =
        (divideDigits U V (fun _ => 0) (Remainder.map fun _ _ => 0)
          (stripDividend U (m + n) m) n).map
            (joinResults lhsWords rhsWords Quotient Remainder) ∧
      (m + n = lhsWords * 2 ∧ digitsVal U 0 (m + n) = wordsVal LHS lhsWords) ∧
      (n ≠ 0 ∧ n ≤ rhsWords * 2) ∧ digitsVal V 0 n = wordsVal RHS rhsWords ∧ V (n - 1) ≠ 0 := by
  have hlen : lhsWords * 2 - rhsWords * 2 + rhsWords * 2 = lhsWords * 2 := by omega
  have hU : digitsVal (Function.update (splitWords LHS lhsWords) (lhsWords * 2) 0) 0
      (lhsWords * 2) = wordsVal LHS lhsWords := by
    rw [digitsVal_update _ _ _ _ (Nat.le_of_eq (Nat.zero_add _)), splitWords_val]
  have hV := splitWords_val RHS rhsWords
  obtain ⟨n, hstrip, hn, hzeros, htop⟩ :=
    stripDivisor_spec (splitWords RHS rhsWords) (rhsWords * 2) (lhsWords * 2 - rhsWords * 2)
  have hVn : digitsVal (splitWords RHS rhsWords) 0 n = wordsVal RHS rhsWords := by
    rw [← hV]
    symm
    apply digitsVal_of_zeros hn
    intro i hi hlt
    rw [Nat.zero_add]
    exact hzeros i hi hlt
  have hn₀ : n ≠ 0 := by
    intro hzero
    rw [← hVn, hzero] at hpos
    exact Nat.lt_irrefl 0 hpos
  have hmn : lhsWords * 2 - rhsWords * 2 + (rhsWords * 2 - n) + n = lhsWords * 2 := by omega
  refine ⟨Function.update (splitWords LHS lhsWords) (lhsWords * 2) 0, _,
    lhsWords * 2 - rhsWords * 2 + (rhsWords * 2 - n), n, ?_, ⟨hmn, ?_⟩, ⟨hn₀, hn⟩, hVn, htop hn₀⟩
  · unfold divide guard
    rw [if_pos hwords]
    simp only [hlen, Option.pure_def, Option.bind_eq_bind, Option.bind_some, hstrip, if_pos hn₀]
    cases divideDigits _ _ _ _ _ n with
    | none => rfl
    | some t => rfl
  · rw [hmn]
    exact hU

theorem log_digits {V : Digits32} (hn : n ≠ 0) (hV : V (n - 1) ≠ 0) :
    Nat.log (2 ^ 32) (digitsVal V 0 n) = n - 1 := by
  have hlower : (V (0 + (n - 1))).toNat * (2 ^ 32) ^ (n - 1) ≤ digitsVal V 0 n :=
    le_value (b := 2 ^ 32) (d := fun i => (V i).toNat) 0 (Nat.sub_one_lt hn)
  rw [Nat.zero_add] at hlower
  have hupper := digitsVal_lt V 0 n
  have hpred : n - 1 + 1 = n := Nat.succ_pred_eq_of_ne_zero hn
  rw [Nat.log_eq_iff (Or.inr ⟨by decide, ?_⟩)]
  · refine ⟨?_, ?_⟩
    · exact Nat.le_trans (Nat.le_mul_of_pos_left _ (toNat_ne_zero.mp hV)) hlower
    · rw [hpred]
      exact hupper
  · intro hzero
    rw [hzero, Nat.le_zero, Nat.mul_eq_zero] at hlower
    rcases hlower with htop | hpow
    · exact absurd htop (Nat.ne_of_gt (toNat_ne_zero.mp hV))
    · exact absurd hpow (Nat.ne_of_gt (Nat.pow_pos (by decide)))

/--
The digits of quotient and remainder, for a dividend whose topmost digit stands
no lower than the divisor's. A dividend of zero has one digit here.
-/
theorem divideStripped_spec (U V : Digits32) (R : Option Digits32) (m : Nat) (hn : n ≠ 0)
    (hV : V (n - 1) ≠ 0) (hlog : n - 1 ≤ Nat.log (2 ^ 32) (digitsVal U 0 (m + n))) :
    ∃ (Q : Digits32) (rem : Digits32 → Digits32),
      divideDigits U V (fun _ => 0) R (stripDividend U (m + n) m) n = some (Q, R.map rem) ∧
      digitsVal Q 0 (m + n) = digitsVal U 0 (m + n) / digitsVal V 0 n ∧
      ∀ r, digitsVal (rem r) 0 n = digitsVal U 0 (m + n) % digitsVal V 0 n ∧
        ∀ i, n ≤ i → rem r i = r i := by
  have hpos := Nat.pos_of_ne_zero hn
  by_cases hle : (2 ^ 32) ^ (n - 1) ≤ digitsVal U 0 (m + n)
  · obtain ⟨m', hrun, hm', hzeros⟩ := stripDividend_spec hpos hle
    have hU : digitsVal U 0 (m + n) = digitsVal U 0 (m' + n) := by
      apply digitsVal_of_zeros (Nat.add_le_add_right hm' n)
      intro i hi hlt
      rw [Nat.zero_add]
      exact hzeros i hi hlt
    obtain ⟨Q, rem, hdiv, ⟨hQ, hframe⟩, hrem⟩ := divideDigits_spec U V (fun _ => 0) R m' hn hV
    rw [hrun, hU]
    refine ⟨Q, rem, hdiv, ?_, hrem⟩
    rw [← hQ]
    apply digitsVal_of_zeros
    · omega
    · intro i hi _
      rw [Nat.zero_add]
      exact hframe i hi
  · -- The counter has wrapped around, which only zero by one digit survives.
    have hlt := Nat.not_le.mp hle
    have hzero : digitsVal U 0 (m + n) = 0 := by
      by_contra hne
      exact hle (Nat.pow_le_of_le_log hne hlog)
    rw [hzero, Nat.log_zero_right] at hlog
    have hone : n = 1 := by omega
    rw [stripDividend_none hpos hlt, hzero, Nat.zero_div, Nat.zero_mod]
    unfold divideDigits
    rw [if_pos hone, hone]
    refine ⟨fun _ => 0, fun R => Function.update R 0 0, rfl, ?_, ?_⟩
    · exact digitsVal_of_zeros (Nat.zero_le _) fun _ _ _ => rfl
    · intro r
      refine ⟨?_, fun i hi => Function.update_of_ne (by omega) _ _⟩
      exact value_one 0

/--
The words of the quotient and of the remainder, for a dividend whose topmost
digit stands no lower than the divisor's.
-/
theorem divide_of_log (LHS RHS : Words64) (Quotient Remainder : Option Words64)
    (hwords : rhsWords ≤ lhsWords) (hpos : 0 < wordsVal RHS rhsWords)
    (hlog : Nat.log (2 ^ 32) (wordsVal RHS rhsWords) ≤ Nat.log (2 ^ 32) (wordsVal LHS lhsWords)) :
    ∃ q r : Words64 → Words64,
      divide LHS lhsWords RHS rhsWords Quotient Remainder =
        some (Quotient.map q, Remainder.map r) ∧
      (∀ w, wordsVal (q w) lhsWords = wordsVal LHS lhsWords / wordsVal RHS rhsWords ∧
        ∀ i, lhsWords ≤ i → q w i = w i) ∧
      ∀ w, wordsVal (r w) rhsWords = wordsVal LHS lhsWords % wordsVal RHS rhsWords ∧
        ∀ i, rhsWords ≤ i → r w i = w i := by
  obtain ⟨U, V, m, n, hrun, ⟨hmn, hU⟩, ⟨hn₀, hn⟩, hV, htop⟩ :=
    divide_run LHS RHS Quotient Remainder hwords hpos
  rw [← hU, ← hV] at hlog ⊢
  rw [log_digits hn₀ htop] at hlog
  obtain ⟨Q, rem, hdiv, hQ, hrem⟩ :=
    divideStripped_spec U V (Remainder.map fun _ _ => 0) m hn₀ htop hlog
  refine ⟨joinWords Q lhsWords, joinWords (rem fun _ => 0) rhsWords, ?_, ?_, ?_⟩
  · rw [hrun, hdiv]
    cases Remainder with
    | none => rfl
    | some w => rfl
  · intro w
    obtain ⟨hjoin, hframe⟩ := joinWords_spec Q lhsWords w
    refine ⟨?_, hframe⟩
    rw [hjoin, ← hQ, hmn]
  · intro w
    obtain ⟨hjoin, hframe⟩ := joinWords_spec (rem fun _ => 0) rhsWords w
    obtain ⟨hval, hremFrame⟩ := hrem fun _ => 0
    refine ⟨?_, hframe⟩
    rw [hjoin, ← hval]
    apply digitsVal_of_zeros hn
    intro i hi _
    rw [Nat.zero_add]
    exact hremFrame i hi

theorem divide_of_log_lt (LHS RHS : Words64) (Quotient Remainder : Option Words64)
    (hwords : rhsWords ≤ lhsWords)
    (hlog : Nat.log (2 ^ 32) (wordsVal LHS lhsWords) < Nat.log (2 ^ 32) (wordsVal RHS rhsWords)) :
    divide LHS lhsWords RHS rhsWords Quotient Remainder = none := by
  have hpos : 0 < wordsVal RHS rhsWords := by
    by_contra hzero
    rw [Nat.eq_zero_of_not_pos hzero, Nat.log_zero_right] at hlog
    exact Nat.not_lt_zero _ hlog
  obtain ⟨U, V, m, n, hrun, ⟨_, hU⟩, ⟨hn₀, _⟩, hV, htop⟩ :=
    divide_run LHS RHS Quotient Remainder hwords hpos
  rw [← hU, ← hV, log_digits hn₀ htop] at hlog
  have hlt : digitsVal U 0 (m + n) < (2 ^ 32) ^ (n - 1) := by
    by_contra hge
    exact Nat.not_le.mpr hlog (Nat.le_log_of_pow_le (by decide) (Nat.not_lt.mp hge))
  have hone : n ≠ 1 := by omega
  rw [hrun, stripDividend_none (Nat.pos_of_ne_zero hn₀) hlt, divideDigits, if_neg hone]
  rfl

theorem divide_spec (LHS RHS : Words64) (Quotient Remainder : Option Words64)
    (hwords : rhsWords ≤ lhsWords) (hpos : 0 < wordsVal RHS rhsWords)
    (hle : wordsVal RHS rhsWords ≤ wordsVal LHS lhsWords) :
    ∃ q r : Words64 → Words64,
      divide LHS lhsWords RHS rhsWords Quotient Remainder =
        some (Quotient.map q, Remainder.map r) ∧
      (∀ w, wordsVal (q w) lhsWords = wordsVal LHS lhsWords / wordsVal RHS rhsWords ∧
        ∀ i, lhsWords ≤ i → q w i = w i) ∧
      ∀ w, wordsVal (r w) rhsWords = wordsVal LHS lhsWords % wordsVal RHS rhsWords ∧
        ∀ i, rhsWords ≤ i → r w i = w i :=
  divide_of_log LHS RHS Quotient Remainder hwords hpos (Nat.log_mono_right hle)

/-- The integer `x` in a width, with the words above it cleared. -/
structure Represents (A : APInt) (BitWidth x : Nat) : Prop where
  width : A.BitWidth = BitWidth
  valid : A.Valid
  val_eq : A.val = x
  cleared : ∀ i, getNumWordsOf x.size ≤ i → i < A.numWords → A.pVal i = 0

variable {A B : APInt}

theorem Valid.represents (hA : A.Valid) : A.Represents A.BitWidth A.val := by
  refine ⟨rfl, hA, rfl, ?_⟩
  intro i hi hlt
  apply eq_zero_of_wordsVal_lt hlt
  rw [getNumWordsOf_le_iff, Nat.size_le, ← wordsVal_pow] at hi
  exact hi

theorem Represents.ofWord {v : BitVec 64} (hn : BitWidth < 2 ^ 32) (h : v.toNat < 2 ^ BitWidth) :
    (ofWord BitWidth v).Represents BitWidth v.toNat := by
  obtain ⟨hvalid, hwidth, hval⟩ := ofWord_valid hn h
  have hself := hvalid.represents
  rw [hwidth, hval] at hself
  exact hself

theorem Represents.ofWords {x : Nat} (hn : BitWidth < 2 ^ 32) (hwide : 64 < BitWidth)
    (hle : n ≤ getNumWordsOf BitWidth) (hzero : ∀ i, n ≤ i → i < getNumWordsOf BitWidth → w i = 0)
    (hval : wordsVal w n = x) (hx : x < 2 ^ BitWidth) :
    Represents { BitWidth := BitWidth, pVal := w } BitWidth x := by
  have hmulti : ¬isSingleWord { BitWidth := BitWidth, pVal := w } = true := by
    rw [isSingleWord_iff]
    exact Nat.not_le.mpr hwide
  have hA : val { BitWidth := BitWidth, pVal := w } = x := by
    rw [val, numWords_multi hmulti, ← hval]
    exact wordsVal_of_zeros hle hzero
  have hvalid : Valid { BitWidth := BitWidth, pVal := w } := ⟨hn, by rw [hA]; exact hx⟩
  have hself := hvalid.represents
  rw [hA] at hself
  exact hself

theorem ofWord_zero (numBits : Nat) :
    ofWord numBits 0 = { BitWidth := numBits, pVal := fun _ => 0 } := by
  rw [ofWord_eq (Nat.two_pow_pos numBits)]
  congr 1
  exact Function.update_eq_self 0 _

theorem wordsVal_clearWords (w : Words64) (lo hi : Nat) :
    wordsVal (clearWords w lo hi) lo = wordsVal w lo := by
  apply wordsVal_congr
  intro i hi
  exact if_neg fun h => Nat.not_lt.mpr h.1 hi

theorem clearWords_above (w : Words64) {lo hi i : Nat} (hlo : lo ≤ i) (hhi : i < hi) :
    clearWords w lo hi i = 0 := if_pos ⟨hlo, hhi⟩

theorem activeWords_spec (hA : A.Valid) (h : ¬A.isSingleWord = true) :
    let n := getNumWordsOf A.getActiveBits
    wordsVal A.pVal n = A.val ∧ n ≤ A.getNumWords ∧ (n = 0 ↔ A.val = 0) := by
  rw [getActiveBits_eq hA h]
  intro n
  have hspec := getNumWordsOf_spec A.val.size
  have hle : n ≤ A.getNumWords := by
    have hsize : A.val.size ≤ A.BitWidth := Nat.size_le.mpr hA.val_lt
    have hwidth := getNumWordsOf_spec A.BitWidth
    exact getNumWordsOf_le_iff.mpr (Nat.le_trans hsize hwidth.1)
  refine ⟨?_, hle, ?_⟩
  · have hval : A.val = wordsVal A.pVal A.getNumWords := by rw [val, numWords_multi h]
    rw [hval]
    symm
    apply wordsVal_of_zeros hle
    intro i hi hlt
    apply hA.represents.cleared i hi
    rw [numWords_multi h]
    exact hlt
  · rw [← Nat.size_eq_zero (n := A.val)]
    omega

theorem activeWords_mono (hA : A.Valid) (h : ¬A.isSingleWord = true) (hB : B.Valid)
    (h' : ¬B.isSingleWord = true) (hle : A.val ≤ B.val) :
    getNumWordsOf A.getActiveBits ≤ getNumWordsOf B.getActiveBits := by
  rw [getActiveBits_eq hA h, getActiveBits_eq hB h', getNumWordsOf_le_iff]
  exact Nat.le_trans (Nat.size_le_size hle) (getNumWordsOf_spec _).1

theorem activeBits_eq_one (hA : A.Valid) (h : ¬A.isSingleWord = true) :
    A.getActiveBits = 1 ↔ A.val = 1 := by
  rw [getActiveBits_eq hA h]
  refine ⟨?_, fun heq => heq ▸ Nat.size_one⟩
  intro hsize
  have hlt := Nat.size_le.mp (Nat.le_of_eq hsize)
  have hge := Nat.lt_size.mp (Nat.lt_of_lt_of_eq Nat.one_pos hsize.symm)
  omega

/-! ## The operations -/

/-- Operands of one width, of which the second is not zero. -/
structure Operands (A B : APInt) : Prop where
  left : A.Valid
  right : B.Valid
  width : A.BitWidth = B.BitWidth
  pos : 0 < B.val

namespace Operands

theorem single_iff (h : Operands A B) : B.isSingleWord = true ↔ A.isSingleWord = true := by
  rw [isSingleWord_iff, isSingleWord_iff, h.width]

theorem single (h : Operands A B) (hsingle : A.isSingleWord = true) :
    A.val = (A.pVal 0).toNat ∧ B.val = (B.pVal 0).toNat ∧ B.pVal 0 ≠ 0 := by
  have hval : B.val = (B.pVal 0).toNat := by
    rw [val, numWords_single (h.single_iff.mpr hsingle), wordsVal_one]
  refine ⟨?_, hval, ?_⟩
  · rw [val, numWords_single hsingle, wordsVal_one]
  · rw [toNat_ne_zero, ← hval]
    exact h.pos

variable (hmulti : ¬A.isSingleWord = true)

include hmulti

theorem rhsWords_ne_zero (h : Operands A B) : getNumWordsOf B.getActiveBits ≠ 0 := by
  intro hzero
  have hval := (activeWords_spec h.right (mt h.single_iff.mp hmulti)).2.2.mp hzero
  exact Nat.ne_of_gt h.pos hval

theorem less_iff (h : Operands A B) :
    (getNumWordsOf A.getActiveBits < getNumWordsOf B.getActiveBits ∨ A.ult B = true) ↔
      A.val < B.val := by
  rw [ult_iff h.width]
  refine ⟨?_, Or.inr⟩
  intro hor
  rcases hor with hwords | hlt
  · by_contra hge
    have hmono := activeWords_mono h.right (mt h.single_iff.mp hmulti) h.left hmulti
      (Nat.not_lt.mp hge)
    exact Nat.not_lt.mpr hmono hwords
  · exact hlt

theorem one_word (h : Operands A B) (hle : B.val ≤ A.val)
    (hone : getNumWordsOf A.getActiveBits = 1) :
    A.val = (A.pVal 0).toNat ∧ B.val = (B.pVal 0).toNat := by
  have hB := mt h.single_iff.mp hmulti
  have hmono := activeWords_mono h.right hB h.left hmulti hle
  have hwords : getNumWordsOf B.getActiveBits = 1 := by
    have hne := h.rhsWords_ne_zero hmulti
    omega
  obtain ⟨hval, _, _⟩ := activeWords_spec h.left hmulti
  obtain ⟨hval', _, _⟩ := activeWords_spec h.right hB
  rw [hone, wordsVal_one] at hval
  rw [hwords, wordsVal_one] at hval'
  exact ⟨hval.symm, hval'.symm⟩

theorem divide_active (h : Operands A B) (hle : B.val ≤ A.val)
    (Quotient Remainder : Option Words64) :
    ∃ q r : Words64 → Words64,
      divide A.pVal (getNumWordsOf A.getActiveBits) B.pVal (getNumWordsOf B.getActiveBits)
          Quotient Remainder = some (Quotient.map q, Remainder.map r) ∧
      (∀ w, wordsVal (q w) (getNumWordsOf A.getActiveBits) = A.val / B.val ∧
        ∀ i, getNumWordsOf A.getActiveBits ≤ i → q w i = w i) ∧
      ∀ w, wordsVal (r w) (getNumWordsOf B.getActiveBits) = A.val % B.val ∧
        ∀ i, getNumWordsOf B.getActiveBits ≤ i → r w i = w i := by
  have hB := mt h.single_iff.mp hmulti
  obtain ⟨hval, _, _⟩ := activeWords_spec h.left hmulti
  obtain ⟨hval', _, _⟩ := activeWords_spec h.right hB
  have hdivide := divide_spec A.pVal B.pVal Quotient Remainder
    (activeWords_mono h.right hB h.left hmulti hle) (by rw [hval']; exact h.pos)
    (by rw [hval, hval']; exact hle)
  rw [hval, hval'] at hdivide
  exact hdivide

theorem quotient (h : Operands A B)
    (hw : wordsVal w (getNumWordsOf A.getActiveBits) = A.val / B.val)
    (hzero : ∀ i, getNumWordsOf A.getActiveBits ≤ i → i < getNumWordsOf A.BitWidth → w i = 0) :
    Represents { BitWidth := A.BitWidth, pVal := w } A.BitWidth (A.val / B.val) := by
  rw [isSingleWord_iff, Nat.not_le] at hmulti
  apply Represents.ofWords h.left.width_lt hmulti _ hzero hw
  · exact Nat.div_lt_of_lt h.left.val_lt
  · apply (activeWords_spec h.left _).2.1
    rw [isSingleWord_iff, Nat.not_le]
    exact hmulti

theorem remainder (h : Operands A B)
    (hw : wordsVal w (getNumWordsOf B.getActiveBits) = A.val % B.val)
    (hzero : ∀ i, getNumWordsOf B.getActiveBits ≤ i → i < getNumWordsOf A.BitWidth → w i = 0) :
    Represents { BitWidth := A.BitWidth, pVal := w } A.BitWidth (A.val % B.val) := by
  have hle := (activeWords_spec h.right (mt h.single_iff.mp hmulti)).2.1
  rw [isSingleWord_iff, Nat.not_le] at hmulti
  unfold getNumWords at hle
  rw [← h.width] at hle
  apply Represents.ofWords h.left.width_lt hmulti hle hzero hw
  exact Nat.mod_lt_of_lt h.left.val_lt

end Operands

/-- Both test the same cases in the same order. -/
theorem udiv_urem_spec (h : Operands A B) :
    (∃ Q, udiv A B = some Q ∧ Q.Represents A.BitWidth (A.val / B.val)) ∧
      ∃ R, urem A B = some R ∧ R.Represents A.BitWidth (A.val % B.val) := by
  have hwide := h.left.width_lt
  have hdiv : A.val / B.val < 2 ^ A.BitWidth :=
    Nat.div_lt_of_lt h.left.val_lt
  have hmod : A.val % B.val < 2 ^ A.BitWidth :=
    Nat.mod_lt_of_lt h.left.val_lt
  have hzeroRep : (ofWord A.BitWidth 0).Represents A.BitWidth 0 :=
    Represents.ofWord hwide (Nat.two_pow_pos _)
  unfold udiv urem guard
  rw [if_pos h.width]
  simp only [Option.pure_def, Option.bind_eq_bind, Option.bind_some]
  by_cases hsingle : A.isSingleWord = true
  · obtain ⟨hA, hB, hne⟩ := h.single hsingle
    rw [if_pos hsingle, if_pos hsingle, if_pos hne]
    rw [hA, hB, ← BitVec.toNat_udiv] at hdiv ⊢
    rw [hA, hB, ← BitVec.toNat_umod] at hmod
    rw [← BitVec.toNat_umod]
    exact ⟨⟨_, rfl, Represents.ofWord hwide hdiv⟩, _, rfl, Represents.ofWord hwide hmod⟩
  · rw [if_neg hsingle, if_neg hsingle, if_pos (h.rhsWords_ne_zero hsingle), Option.bind_some,
      Option.bind_some]
    by_cases hzero : getNumWordsOf A.getActiveBits = 0
    · rw [if_pos hzero, if_pos hzero]
      rw [(activeWords_spec h.left hsingle).2.2.mp hzero, Nat.zero_div, Nat.zero_mod]
      exact ⟨⟨_, rfl, hzeroRep⟩, _, rfl, hzeroRep⟩
    rw [if_neg hzero, if_neg hzero]
    by_cases hone : B.getActiveBits = 1
    · rw [if_pos hone, if_pos hone]
      rw [(activeBits_eq_one h.right (mt h.single_iff.mp hsingle)).mp hone, Nat.div_one, Nat.mod_one]
      exact ⟨⟨_, rfl, h.left.represents⟩, _, rfl, hzeroRep⟩
    rw [if_neg hone, if_neg hone]
    by_cases hless : A.val < B.val
    · have hcond := (h.less_iff hsingle).mpr hless
      rw [if_pos hcond, if_pos hcond]
      rw [Nat.div_eq_of_lt hless, Nat.mod_eq_of_lt hless]
      exact ⟨⟨_, rfl, hzeroRep⟩, _, rfl, h.left.represents⟩
    have hless' := mt (h.less_iff hsingle).mp hless
    rw [if_neg hless', if_neg hless']
    by_cases heq : A.val = B.val
    · have hcond := (eq_iff h.width).mpr heq
      rw [if_pos hcond, if_pos hcond]
      rw [heq, Nat.div_self h.pos] at hdiv ⊢
      rw [Nat.mod_self]
      exact ⟨⟨_, rfl, Represents.ofWord hwide hdiv⟩, _, rfl, hzeroRep⟩
    have heq' := mt (eq_iff h.width).mp heq
    rw [if_neg heq', if_neg heq']
    have hle := Nat.not_lt.mp hless
    by_cases hword : getNumWordsOf A.getActiveBits = 1
    · rw [if_pos hword, if_pos hword]
      obtain ⟨hA, hB⟩ := h.one_word hsingle hle hword
      rw [hA, hB, ← BitVec.toNat_udiv] at hdiv ⊢
      rw [hA, hB, ← BitVec.toNat_umod] at hmod
      rw [← BitVec.toNat_umod]
      exact ⟨⟨_, rfl, Represents.ofWord hwide hdiv⟩, _, rfl, Represents.ofWord hwide hmod⟩
    rw [if_neg hword, if_neg hword, ofWord_zero]
    constructor
    · obtain ⟨q, r, hrun, hq, _⟩ := h.divide_active hsingle hle (some fun _ => 0) none
      rw [hrun]
      exact ⟨_, rfl, h.quotient hsingle (hq _).1 fun i hi _ => (hq _).2 i hi⟩
    · obtain ⟨q, r, hrun, _, hr⟩ := h.divide_active hsingle hle none (some fun _ => 0)
      rw [hrun]
      exact ⟨_, rfl, h.remainder hsingle (hr _).1 fun i hi _ => (hr _).2 i hi⟩

theorem udiv_spec (h : Operands A B) :
    ∃ Q, udiv A B = some Q ∧ Q.Represents A.BitWidth (A.val / B.val) := (udiv_urem_spec h).1

theorem urem_spec (h : Operands A B) :
    ∃ R, urem A B = some R ∧ R.Represents A.BitWidth (A.val % B.val) := (udiv_urem_spec h).2

theorem reallocate_width (getMemory : Words64) (NewBitWidth : Nat) (A : APInt) :
    (reallocate getMemory NewBitWidth A).BitWidth = NewBitWidth := by
  unfold reallocate
  split
  · rfl
  · rfl

theorem Represents.assignWord {A : APInt} {v : BitVec 64} (hwidth : A.BitWidth = BitWidth)
    (hn : BitWidth < 2 ^ 32) (hwide : 64 < BitWidth) :
    (assignWord A v).Represents BitWidth v.toNat := by
  rw [← hwidth] at hn hwide ⊢
  have hmulti : ¬A.isSingleWord = true := by
    rw [isSingleWord_iff, Nat.not_le]
    exact hwide
  unfold APInt.assignWord
  rw [if_neg hmulti]
  apply Represents.ofWords hn hwide (Nat.le_of_lt (one_lt_getNumWords hmulti))
  · intro i hi hlt
    exact clearWords_above _ hi hlt
  · rw [wordsVal_clearWords, wordsVal_one, Function.update_self]
  · exact Nat.lt_of_lt_of_le v.isLt (Nat.pow_le_pow_right (by decide) (Nat.le_of_lt hwide))

theorem udivrem_spec (h : Operands A B) (getMemory getMemory' : Words64)
    (Quotient Remainder : APInt) :
    ∃ Q R, udivrem getMemory getMemory' A B Quotient Remainder = some (Q, R) ∧
      Q.Represents A.BitWidth (A.val / B.val) ∧ R.Represents A.BitWidth (A.val % B.val) := by
  have hwide := h.left.width_lt
  have hdiv : A.val / B.val < 2 ^ A.BitWidth :=
    Nat.div_lt_of_lt h.left.val_lt
  have hmod : A.val % B.val < 2 ^ A.BitWidth :=
    Nat.mod_lt_of_lt h.left.val_lt
  have hnull : (ofWord A.BitWidth 0).Represents A.BitWidth 0 :=
    Represents.ofWord hwide (Nat.two_pow_pos _)
  unfold udivrem guard
  rw [if_pos h.width]
  simp only [Option.pure_def, Option.bind_eq_bind, Option.bind_some]
  by_cases hsingle : A.isSingleWord = true
  · obtain ⟨hA, hB, hne⟩ := h.single hsingle
    rw [if_pos hsingle, if_pos hne]
    refine ⟨_, _, rfl, ?_, ?_⟩
    · rw [hA, hB, ← BitVec.toNat_udiv] at hdiv ⊢
      exact Represents.ofWord hwide hdiv
    · rw [hA, hB, ← BitVec.toNat_umod] at hmod ⊢
      exact Represents.ofWord hwide hmod
  · rw [if_neg hsingle, if_pos (h.rhsWords_ne_zero hsingle), Option.bind_some]
    by_cases hzero : getNumWordsOf A.getActiveBits = 0
    · have hval := (activeWords_spec h.left hsingle).2.2.mp hzero
      rw [if_pos hzero, hval, Nat.zero_div, Nat.zero_mod]
      exact ⟨_, _, rfl, hnull, hnull⟩
    rw [if_neg hzero]
    -- what a divisor of one assigns is assigned again
    generalize (if B.getActiveBits = 1 then A else Quotient) = Quotient
    generalize (if B.getActiveBits = 1 then ofWord A.BitWidth 0 else Remainder) = Remainder
    by_cases hless : A.val < B.val
    · rw [if_pos ((h.less_iff hsingle).mpr hless), Nat.div_eq_of_lt hless,
        Nat.mod_eq_of_lt hless]
      exact ⟨_, _, rfl, hnull, h.left.represents⟩
    rw [if_neg (mt (h.less_iff hsingle).mp hless)]
    by_cases heq : A.val = B.val
    · rw [heq, Nat.div_self h.pos] at hdiv
      rw [if_pos ((eq_iff h.width).mpr heq), heq, Nat.div_self h.pos, Nat.mod_self]
      exact ⟨_, _, rfl, Represents.ofWord hwide hdiv, hnull⟩
    rw [if_neg (mt (eq_iff h.width).mp heq)]
    have hle := Nat.not_lt.mp hless
    have hQ := reallocate_width getMemory A.BitWidth Quotient
    have hR := reallocate_width getMemory' A.BitWidth Remainder
    generalize reallocate getMemory A.BitWidth Quotient = Quotient at hQ ⊢
    generalize reallocate getMemory' A.BitWidth Remainder = Remainder at hR ⊢
    by_cases hword : getNumWordsOf A.getActiveBits = 1
    · obtain ⟨hA, hB⟩ := h.one_word hsingle hle hword
      rw [if_pos hword, hA, hB, ← BitVec.toNat_udiv, ← BitVec.toNat_umod]
      rw [isSingleWord_iff, Nat.not_le] at hsingle
      exact ⟨_, _, rfl, Represents.assignWord hQ hwide hsingle,
        Represents.assignWord hR hwide hsingle⟩
    rw [if_neg hword]
    obtain ⟨q, r, hrun, hq, hr⟩ :=
      h.divide_active hsingle hle (some Quotient.pVal) (some Remainder.pVal)
    rw [hrun, hQ, hR]
    refine ⟨_, _, rfl, h.quotient hsingle ?_ ?_, h.remainder hsingle ?_ ?_⟩
    · rw [wordsVal_clearWords]
      exact (hq _).1
    · intro i hi hlt
      exact clearWords_above _ hi hlt
    · rw [wordsVal_clearWords]
      exact (hr _).1
    · intro i hi hlt
      exact clearWords_above _ hi hlt

/--
Quotient and remainder of integers of one width, for any memory that the
results are written to, and of the words of a divisor that is not larger than
the dividend, which is when `divide` is called.
-/
theorem division_exact :
    (∀ A B : APInt, A.Valid → B.Valid → A.BitWidth = B.BitWidth → B.val ≠ 0 →
      (∃ Q, udiv A B = some Q ∧ Q.Represents A.BitWidth (A.val / B.val)) ∧
      (∃ R, urem A B = some R ∧
        R.Represents A.BitWidth (A.val - B.val * (A.val / B.val))) ∧
      ∀ getMemory getMemory' Quotient Remainder, ∃ Q R,
        udivrem getMemory getMemory' A B Quotient Remainder = some (Q, R) ∧
          Q.Represents A.BitWidth (A.val / B.val) ∧
          R.Represents A.BitWidth (A.val - B.val * (A.val / B.val))) ∧
    ∀ (LHS RHS : Words64) (lhsWords rhsWords : Nat) (Quotient Remainder : Option Words64),
      rhsWords ≤ lhsWords → 0 < wordsVal RHS rhsWords →
      wordsVal RHS rhsWords ≤ wordsVal LHS lhsWords →
      ∃ q r : Words64 → Words64,
        divide LHS lhsWords RHS rhsWords Quotient Remainder =
          some (Quotient.map q, Remainder.map r) ∧
        (∀ w, wordsVal (q w) lhsWords = wordsVal LHS lhsWords / wordsVal RHS rhsWords ∧
          ∀ i, lhsWords ≤ i → q w i = w i) ∧
        ∀ w, wordsVal (r w) rhsWords = wordsVal LHS lhsWords % wordsVal RHS rhsWords ∧
          ∀ i, rhsWords ≤ i → r w i = w i := by
  refine ⟨?_, ?_⟩
  · intro A B hA hB hwidth hne
    have h : Operands A B := ⟨hA, hB, hwidth, Nat.pos_of_ne_zero hne⟩
    rw [← Nat.mod_eq_sub_mul_div]
    exact ⟨udiv_spec h, urem_spec h, udivrem_spec h⟩
  · intro LHS RHS lhsWords rhsWords Quotient Remainder hwords hpos hle
    exact divide_spec _ _ Quotient Remainder hwords hpos hle

/-- `9 * 2^64 + 5` by `2^64 + 2`. -/
theorem division_exact_twoWords :
    let A : APInt := { BitWidth := 128, pVal := fun i => [5#64, 9#64].getD i 0 }
    let B : APInt := { BitWidth := 128, pVal := fun i => [2#64, 1#64].getD i 0 }
    (∃ Q, udiv A B = some Q ∧ Q.Represents 128 8) ∧
      (∃ R, urem A B = some R ∧ R.Represents 128 (2 ^ 64 - 11)) ∧
      ∃ q r : Words64 → Words64, divide A.pVal 2 B.pVal 2 (some A.pVal) none =
        some (some (q A.pVal), none) ∧ wordsVal (q A.pVal) 2 = 8 ∧
          wordsVal (r B.pVal) 2 = 2 ^ 64 - 11 := by
  intro A B
  have hA : A.Valid := ⟨by decide, by decide +kernel⟩
  have hB : B.Valid := ⟨by decide, by decide +kernel⟩
  have hquot : A.val / B.val = 8 := by decide +kernel
  have hrem : A.val - B.val * 8 = 2 ^ 64 - 11 := by decide +kernel
  obtain ⟨hudiv, hurem, _⟩ := division_exact.1 A B hA hB rfl (by decide +kernel)
  obtain ⟨q, r, hrun, hq, hr⟩ := division_exact.2 A.pVal B.pVal 2 2 (some A.pVal) none
    (Nat.le_refl 2) (by decide +kernel) (by decide +kernel)
  rw [hquot] at hudiv hurem
  rw [hrem] at hurem
  refine ⟨hudiv, hurem, q, r, hrun, ?_, ?_⟩
  · rw [(hq A.pVal).1]
    decide +kernel
  · rw [(hr B.pVal).1]
    decide +kernel

end APInt

end SmlnjLlvm.Support
