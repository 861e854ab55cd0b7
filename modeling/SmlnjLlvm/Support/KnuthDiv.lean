import SmlnjLlvm.Library.Digits
import SmlnjLlvm.Library.TrialQuotient
import SmlnjLlvm.Support.MathExtras

/-!
# Knuth's Algorithm D

Division of arrays of 32-bit digits, in arithmetic of 64 bits. The names are
those of the source, which are Knuth's.
-/

namespace SmlnjLlvm.Support

open Digits TrialQuotient

/-- Digits of 32 bits by their position. -/
abbrev Digits32 := Nat → BitVec 32

def make64 (High Low : BitVec 32) : BitVec 64 := High.setWidth 64 <<< 32 ||| Low.setWidth 64

def hi32 (Value : BitVec 64) : BitVec 32 := (Value >>> 32).setWidth 32

def lo32 (Value : BitVec 64) : BitVec 32 := Value.setWidth 32

namespace KnuthDiv

/-- Shifts `n` digits left; the bits that leave the last one are the carry. -/
def normalize (shift n : Nat) (u : Digits32) : Digits32 × BitVec 32 :=
  upto (fun i (s : Digits32 × BitVec 32) =>
    (Function.update s.1 i (s.1 i <<< shift ||| s.2), s.1 i >>> (32 - shift))) n (u, 0)

/-- D3, the trial digit of the quotient. -/
def trialDigit (u v : Digits32) (n j : Nat) : BitVec 64 :=
  let b : BitVec 64 := (1 : BitVec 64) <<< 32
  let v₁ := (v (n - 1)).setWidth 64
  let v₂ := (v (n - 2)).setWidth 64
  let u₂ := (u (j + n - 2)).setWidth 64
  let dividend := make64 (u (j + n)) (u (j + n - 1))
  let qp := dividend / v₁
  let rp := dividend % v₁
  if qp = b ∨ b * rp + u₂ < qp * v₂ then
    let qp := qp - 1
    let rp := rp + v₁
    if rp < b ∧ (qp = b ∨ b * rp + u₂ < qp * v₂) then qp - 1 else qp
  else qp

/-- D4, with the borrow that is left. -/
def mulSub (qp : BitVec 64) (v : Digits32) (j n : Nat) (u : Digits32) : Digits32 × BitVec 64 :=
  upto (fun i (s : Digits32 × BitVec 64) =>
    let p := qp * (v i).setWidth 64
    let subres := (s.1 (j + i)).setWidth 64 - s.2 - (lo32 p).setWidth 64
    (Function.update s.1 (j + i) (lo32 subres), (hi32 p - hi32 subres).setWidth 64)) n (u, 0)

def carryIn (carry : Bool) : BitVec 32 := if carry then 1 else 0

/-- D6, with the carry that is left. -/
def addBack (v : Digits32) (j n : Nat) (u : Digits32) : Digits32 × Bool :=
  upto (fun i (s : Digits32 × Bool) =>
    let limit := if v i < s.1 (j + i) then v i else s.1 (j + i)
    let sum := s.1 (j + i) + (v i + carryIn s.2)
    (Function.update s.1 (j + i) sum, decide (sum < limit) || (s.2 && decide (sum = limit)))) n
      (u, false)

/-- D3 to D6 for the digit `j` of the quotient. -/
def digitStep (v : Digits32) (n j : Nat) (s : Digits32 × Digits32) : Digits32 × Digits32 :=
  let (u, q) := s
  let qp := trialDigit u v n j
  let (u, borrow) := mulSub qp v j n u
  let isNeg := ((u (j + n)).setWidth 64).slt borrow
  let u := Function.update u (j + n) (u (j + n) - lo32 borrow)
  let q := Function.update q j (lo32 qp)
  if isNeg then
    let q := Function.update q j (q j - 1)
    let (u, carry) := addBack v j n u
    (Function.update u (j + n) (u (j + n) + carryIn carry), q)
  else (u, q)

/-- D8, the remainder. -/
def unnormalize (shift n : Nat) (u r : Digits32) : Digits32 :=
  if shift ≠ 0 then
    (downFrom (fun i (s : Digits32 × BitVec 32) =>
      (Function.update s.1 i (u i >>> shift ||| s.2), u i <<< (32 - shift))) n (r, 0)).1
  else downFrom (fun i r => Function.update r i (u i)) n r

end KnuthDiv

open KnuthDiv in
/-- The quotient and, where `r` is given, the remainder. -/
def knuthDiv (u v q : Digits32) (r : Option Digits32) (m n : Nat) :
    Option (Digits32 × Option Digits32) := do
  guard (1 < n)
  let shift := countl_zero (v (n - 1))
  let (u, u_carry) := if shift ≠ 0 then normalize shift (m + n) u else (u, 0)
  let v := if shift ≠ 0 then (normalize shift n v).1 else v
  let u := Function.update u (m + n) u_carry
  let (u, q) := downFrom (digitStep v n) (m + 1) (u, q)
  some (q, r.map (unnormalize shift n u))

def digitsVal (u : Digits32) (lo n : Nat) : Nat := value (2 ^ 32) (fun i => (u i).toNat) lo n

theorem digitsVal_lt (u : Digits32) (lo n : Nat) : digitsVal u lo n < (2 ^ 32) ^ n :=
  value_lt fun i _ => (u (lo + i)).isLt

theorem digitsVal_succ (u : Digits32) (lo n : Nat) :
    digitsVal u lo (n + 1) = digitsVal u lo n + (u (lo + n)).toNat * (2 ^ 32) ^ n := rfl

theorem digitsVal_succ' (u : Digits32) (lo n : Nat) :
    digitsVal u lo (n + 1) = (u lo).toNat + 2 ^ 32 * digitsVal u (lo + 1) n :=
  value_succ' lo n

theorem digitsVal_add (u : Digits32) (lo n m : Nat) :
    digitsVal u lo (n + m) = digitsVal u lo n + (2 ^ 32) ^ n * digitsVal u (lo + n) m :=
  value_add lo n m

theorem digitsVal_congr {u u' : Digits32} {lo n : Nat} (h : ∀ i < n, u (lo + i) = u' (lo + i)) :
    digitsVal u lo n = digitsVal u' lo n :=
  value_congr fun i hi => congrArg BitVec.toNat (h i hi)

theorem digitsVal_of_zeros {u : Digits32} {lo n m : Nat} (hle : n ≤ m)
    (h : ∀ i, n ≤ i → i < m → u (lo + i) = 0) : digitsVal u lo m = digitsVal u lo n :=
  value_of_zeros hle fun i hi hm => congrArg BitVec.toNat (h i hi hm)

theorem digitsVal_update (u : Digits32) (lo n : Nat) (x : BitVec 32) {k : Nat} (hk : lo + n ≤ k) :
    digitsVal (Function.update u k x) lo n = digitsVal u lo n := by
  apply digitsVal_congr
  intro i hi
  exact Function.update_of_ne (Nat.ne_of_lt (by omega)) _ _

theorem make64_toNat (High Low : BitVec 32) :
    (make64 High Low).toNat = High.toNat * 2 ^ 32 + Low.toNat := by
  have hl := Low.isLt
  unfold make64
  rw [BitVec.toNat_or, BitVec.toNat_shiftLeft, BitVec.toNat_setWidth, BitVec.toNat_setWidth,
    Nat.mod_eq_of_lt (a := High.toNat) (by omega), Nat.mod_eq_of_lt (a := Low.toNat) (by omega),
    Nat.shiftLeft_eq, Nat.mod_eq_of_lt (by omega), Nat.mul_comm, ← Nat.two_pow_add_eq_or_of_lt hl]

theorem lo32_toNat (x : BitVec 64) : (lo32 x).toNat = x.toNat % 2 ^ 32 := BitVec.toNat_setWidth ..

theorem hi32_toNat (x : BitVec 64) : (hi32 x).toNat = x.toNat / 2 ^ 32 := by
  unfold hi32
  rw [BitVec.toNat_setWidth, Words.toNat_shr,
    Nat.mod_eq_of_lt (by omega)]

theorem setWidth64_toNat (x : BitVec 32) : (x.setWidth 64).toNat = x.toNat := by
  rw [BitVec.toNat_setWidth, Nat.mod_eq_of_lt (by omega)]

namespace KnuthDiv

theorem shiftLeft_digit {x c : BitVec 32} {s : Nat} (hs' : s < 32)
    (hc : c.toNat < 2 ^ s) :
    (x <<< s ||| c).toNat + (x >>> (32 - s)).toNat * 2 ^ 32 = x.toNat * 2 ^ s + c.toNat ∧
      (x >>> (32 - s)).toNat < 2 ^ s := by
  have hsplit : 2 ^ s * 2 ^ (32 - s) = 2 ^ 32 := by
    rw [← Nat.pow_add, Nat.add_sub_cancel' (Nat.le_of_lt hs')]
  have hx := x.isLt
  have hdiv := Nat.div_add_mod x.toNat (2 ^ (32 - s))
  have hhigh : (x >>> (32 - s)).toNat = x.toNat / 2 ^ (32 - s) := by
    rw [Words.toNat_shr]
  have hlow : (x <<< s).toNat = 2 ^ s * (x.toNat % 2 ^ (32 - s)) := by
    rw [Words.toNat_shl, ← hsplit, Nat.mul_comm, Nat.mul_mod_mul_left]
  refine ⟨?_, ?_⟩
  · rw [BitVec.toNat_or, hlow, ← Nat.two_pow_add_eq_or_of_lt hc, hhigh]
    calc 2 ^ s * (x.toNat % 2 ^ (32 - s)) + c.toNat + x.toNat / 2 ^ (32 - s) * 2 ^ 32
        = 2 ^ s * (2 ^ (32 - s) * (x.toNat / 2 ^ (32 - s)) + x.toNat % 2 ^ (32 - s)) + c.toNat := by
          rw [← hsplit]
          ring
      _ = x.toNat * 2 ^ s + c.toNat := by rw [hdiv, Nat.mul_comm]
  · rw [hhigh, Nat.div_lt_iff_lt_mul (Nat.two_pow_pos _), hsplit]
    exact hx

theorem normalize_spec {s : Nat} (hs' : s < 32) (n : Nat) (u : Digits32) :
    (digitsVal (normalize s n u).1 0 n + (normalize s n u).2.toNat * (2 ^ 32) ^ n = digitsVal u 0 n * 2 ^ s ∧
      (normalize s n u).2.toNat < 2 ^ s) ∧ ∀ k, n ≤ k → (normalize s n u).1 k = u k := by
  refine upto_rule (fun i (t : Digits32 × BitVec 32) =>
    (digitsVal t.1 0 i + t.2.toNat * (2 ^ 32) ^ i = digitsVal u 0 i * 2 ^ s ∧ t.2.toNat < 2 ^ s) ∧
      ∀ k, i ≤ k → t.1 k = u k) ⟨⟨?_, Nat.two_pow_pos s⟩, fun k _ => rfl⟩ ?_
  · exact (Nat.zero_mul _).symm
  · rintro i ⟨u', c⟩ _ ⟨⟨hval, hc⟩, hframe⟩
    obtain ⟨hdigit, hlt⟩ := shiftLeft_digit hs' hc (x := u' i)
    refine ⟨⟨?_, hlt⟩, ?_⟩
    · dsimp only at hval hdigit ⊢
      rw [digitsVal_succ, digitsVal_update _ _ _ _ (Nat.le_of_eq (Nat.zero_add i)), Nat.zero_add,
        Function.update_self, digitsVal_succ, Nat.zero_add, ← hframe i (Nat.le_refl i), Nat.add_mul,
        ← hval, pow_succ (2 ^ 32) i]
      dsimp only
      generalize u' i <<< s ||| c = low at hdigit ⊢
      generalize u' i >>> (32 - s) = carry at hdigit ⊢
      have hmul := congrArg (· * (2 ^ 32) ^ i) hdigit
      generalize (2 ^ 32) ^ i = B at hmul ⊢
      have hleft : (low.toNat + carry.toNat * 2 ^ 32) * B =
          low.toNat * B + carry.toNat * (B * 2 ^ 32) := by ring
      have hright : ((u' i).toNat * 2 ^ s + c.toNat) * B =
          (u' i).toNat * B * 2 ^ s + c.toNat * B := by ring
      omega
    · intro k hk
      exact (Function.update_of_ne (by omega) _ _).trans (hframe k (by omega))

theorem mulSub_digit {qp borrow : BitVec 64} {x y : BitVec 32} (hqp : qp.toNat < 2 ^ 32)
    (hle : borrow.toNat ≤ qp.toNat) :
    let p := qp * y.setWidth 64
    let subres := x.setWidth 64 - borrow - (lo32 p).setWidth 64
    let borrow' : BitVec 64 := (hi32 p - hi32 subres).setWidth 64
    (lo32 subres).toNat + qp.toNat * y.toNat + borrow.toNat = x.toNat + borrow'.toNat * 2 ^ 32 ∧
      borrow'.toNat ≤ qp.toNat := by
  intro p subres borrow'
  have hmul : qp.toNat * y.toNat ≤ qp.toNat * (2 ^ 32 - 1) := Nat.mul_le_mul_left _ (by omega)
  have hp : p.toNat = qp.toNat * y.toNat := by
    rw [BitVec.toNat_mul, setWidth64_toNat, Nat.mod_eq_of_lt (by omega)]
  have hsub : subres.toNat = (x.toNat + 2 ^ 65 - borrow.toNat - p.toNat % 2 ^ 32) % 2 ^ 64 := by
    rw [BitVec.toNat_sub, BitVec.toNat_sub, setWidth64_toNat, setWidth64_toNat, lo32_toNat]
    omega
  have hborrow : borrow'.toNat = (p.toNat / 2 ^ 32 + 2 ^ 32 - subres.toNat / 2 ^ 32) % 2 ^ 32 := by
    rw [setWidth64_toNat, BitVec.toNat_sub, hi32_toNat, hi32_toNat]
    omega
  rw [lo32_toNat, ← hp]
  omega

theorem mulSub_spec {qp : BitVec 64} (hqp : qp.toNat < 2 ^ 32) (v : Digits32) (j n : Nat)
    (u : Digits32) :
    (digitsVal (mulSub qp v j n u).1 j n + qp.toNat * digitsVal v 0 n =
        digitsVal u j n + (mulSub qp v j n u).2.toNat * (2 ^ 32) ^ n ∧
      (mulSub qp v j n u).2.toNat ≤ qp.toNat) ∧
      ∀ k, k < j ∨ j + n ≤ k → (mulSub qp v j n u).1 k = u k := by
  refine upto_rule (fun i (t : Digits32 × BitVec 64) =>
    (digitsVal t.1 j i + qp.toNat * digitsVal v 0 i = digitsVal u j i + t.2.toNat * (2 ^ 32) ^ i ∧
      t.2.toNat ≤ qp.toNat) ∧ ∀ k, k < j ∨ j + i ≤ k → t.1 k = u k)
    ⟨⟨rfl, Nat.zero_le _⟩, fun k _ => rfl⟩ ?_
  rintro i ⟨u', borrow⟩ _ ⟨⟨hval, hle⟩, hframe⟩
  obtain ⟨hdigit, hle'⟩ := mulSub_digit (x := u' (j + i)) (y := v i) hqp hle
  refine ⟨⟨?_, hle'⟩, ?_⟩
  · dsimp only at hval ⊢
    rw [digitsVal_succ, digitsVal_update _ _ _ _ (Nat.le_refl _), Function.update_self, digitsVal_succ, digitsVal_succ,
      Nat.zero_add, ← hframe (j + i) (Or.inr (Nat.le_refl _)), pow_succ (2 ^ 32) i]
    dsimp only
    generalize lo32 (_ - _ - _) = low at hdigit ⊢
    generalize BitVec.setWidth 64 (hi32 _ - hi32 _) = borrow' at hdigit ⊢
    have hmul := congrArg (· * (2 ^ 32) ^ i) hdigit
    generalize (2 ^ 32) ^ i = B at hval hmul ⊢
    have hleft : (low.toNat + qp.toNat * (v i).toNat + borrow.toNat) * B =
        low.toNat * B + qp.toNat * ((v i).toNat * B) + borrow.toNat * B := by ring
    have hright : ((u' (j + i)).toNat + borrow'.toNat * 2 ^ 32) * B =
        (u' (j + i)).toNat * B + borrow'.toNat * (B * 2 ^ 32) := by ring
    rw [hleft, hright] at hmul
    rw [Nat.mul_add]
    omega
  · intro k hk
    refine (Function.update_of_ne ?_ _ _).trans (hframe k ?_)
    · omega
    · omega

theorem addBack_digit (x y : BitVec 32) (carry : Bool) :
    let limit := if y < x then y else x
    let sum := x + (y + carryIn carry)
    let carry' := decide (sum < limit) || (carry && decide (sum = limit))
    sum.toNat + (carryIn carry').toNat * 2 ^ 32 = x.toNat + y.toNat + (carryIn carry).toNat := by
  intro limit sum carry'
  have hin : (carryIn carry).toNat = if carry then 1 else 0 := by cases carry <;> rfl
  have hsum : sum.toNat = (x.toNat + y.toNat + (carryIn carry).toNat) % 2 ^ 32 := by
    rw [BitVec.toNat_add, BitVec.toNat_add, Nat.add_mod_mod, Nat.add_assoc]
  have hlimit : limit.toNat = if y.toNat < x.toNat then y.toNat else x.toNat := by
    change (if y < x then y else x).toNat = _
    by_cases h : y < x
    · rw [if_pos h, if_pos (BitVec.lt_def.mp h)]
    · rw [if_neg h, if_neg (mt BitVec.lt_def.mpr h)]
  have hout : (carryIn carry').toNat =
      if sum.toNat < limit.toNat ∨ carry = true ∧ sum.toNat = limit.toNat then 1 else 0 := by
    have hiff : carry' = true ↔
        sum.toNat < limit.toNat ∨ carry = true ∧ sum.toNat = limit.toNat := by
      rw [Bool.or_eq_true, Bool.and_eq_true, decide_eq_true_iff, decide_eq_true_iff,
        BitVec.lt_def, ← BitVec.toNat_inj]
    by_cases h : carry' = true
    · rw [if_pos (hiff.mp h), h]
      rfl
    · rw [if_neg (mt hiff.mpr h), Bool.eq_false_iff.mpr h]
      rfl
  have hmin : limit.toNat ≤ x.toNat ∧ limit.toNat ≤ y.toNat ∧
      (limit.toNat = x.toNat ∨ limit.toNat = y.toNat) := by
    rw [hlimit]
    split
    · omega
    · omega
  rw [hout]
  cases carry with
  | false =>
    rw [if_neg Bool.false_ne_true] at hin
    rw [hin] at hsum ⊢
    have hcond : (sum.toNat < limit.toNat ∨ false = true ∧ sum.toNat = limit.toNat) ↔
        sum.toNat < limit.toNat := by simp
    rw [if_congr hcond rfl rfl]
    split
    · omega
    · omega
  | true =>
    rw [if_pos rfl] at hin
    rw [hin] at hsum ⊢
    have hcond : (sum.toNat < limit.toNat ∨ true = true ∧ sum.toNat = limit.toNat) ↔
        sum.toNat ≤ limit.toNat := by
      rw [Nat.le_iff_lt_or_eq]
      simp
    rw [if_congr hcond rfl rfl]
    split
    · omega
    · omega

theorem addBack_spec (v : Digits32) (j n : Nat) (u : Digits32) :
    digitsVal (addBack v j n u).1 j n + (carryIn (addBack v j n u).2).toNat * (2 ^ 32) ^ n =
        digitsVal u j n + digitsVal v 0 n ∧
      ∀ k, k < j ∨ j + n ≤ k → (addBack v j n u).1 k = u k := by
  refine upto_rule (fun i (t : Digits32 × Bool) =>
    digitsVal t.1 j i + (carryIn t.2).toNat * (2 ^ 32) ^ i = digitsVal u j i + digitsVal v 0 i ∧
      ∀ k, k < j ∨ j + i ≤ k → t.1 k = u k) ⟨rfl, fun k _ => rfl⟩ ?_
  rintro i ⟨u', carry⟩ _ ⟨hval, hframe⟩
  have hdigit := addBack_digit (u' (j + i)) (v i) carry
  refine ⟨?_, ?_⟩
  · dsimp only at hval hdigit ⊢
    rw [digitsVal_succ, digitsVal_update _ _ _ _ (Nat.le_refl _), Function.update_self, digitsVal_succ, digitsVal_succ,
      Nat.zero_add, ← hframe (j + i) (Or.inr (Nat.le_refl _)), pow_succ (2 ^ 32) i]
    dsimp only
    generalize hlimit : (if v i < u' (j + i) then v i else u' (j + i)) = limit at hdigit ⊢
    generalize u' (j + i) + (v i + carryIn carry) = sum at hdigit ⊢
    generalize (decide (sum < limit) || (carry && decide (sum = limit))) = carry' at hdigit ⊢
    have hmul := congrArg (· * (2 ^ 32) ^ i) hdigit
    generalize (2 ^ 32) ^ i = B at hval hmul ⊢
    have hleft : (sum.toNat + (carryIn carry').toNat * 2 ^ 32) * B =
        sum.toNat * B + (carryIn carry').toNat * (B * 2 ^ 32) := by ring
    have hright : ((u' (j + i)).toNat + (v i).toNat + (carryIn carry).toNat) * B =
        (u' (j + i)).toNat * B + (v i).toNat * B + (carryIn carry).toNat * B := by ring
    omega
  · intro k hk
    refine (Function.update_of_ne ?_ _ _).trans (hframe k ?_)
    · omega
    · omega

theorem test_toNat {qp rp : BitVec 64} (x y : BitVec 32) (hqp : qp.toNat ≤ 2 ^ 32 + 1)
    (hrp : rp.toNat < 2 ^ 32) :
    (qp = (1 : BitVec 64) <<< 32 ∨
        (1 : BitVec 64) <<< 32 * rp + x.setWidth 64 < qp * y.setWidth 64) ↔
      (qp.toNat = 2 ^ 32 ∨ 2 ^ 32 * rp.toNat + x.toNat < qp.toNat * y.toNat) := by
  have hy := y.isLt
  have hb : ((1 : BitVec 64) <<< 32).toNat = 2 ^ 32 := rfl
  have hleft : ((1 : BitVec 64) <<< 32 * rp + x.setWidth 64).toNat = 2 ^ 32 * rp.toNat + x.toNat := by
    rw [BitVec.toNat_add, BitVec.toNat_mul, hb, setWidth64_toNat, Nat.mod_add_mod,
      Nat.mod_eq_of_lt (by omega)]
  have hright : (qp * y.setWidth 64).toNat = qp.toNat * y.toNat := by
    have hmul := Nat.mul_le_mul hqp (Nat.le_of_lt_succ hy)
    rw [BitVec.toNat_mul, setWidth64_toNat, Nat.mod_eq_of_lt (by omega)]
  rw [BitVec.lt_def, hleft, hright, ← BitVec.toNat_inj, hb]

theorem dec_toNat {qp : BitVec 64} {x y : Nat} (h : qp.toNat = 2 ^ 32 ∨ x < qp.toNat * y) :
    (qp - 1).toNat = qp.toNat - 1 := by
  have hpos : 0 < qp.toNat := by
    rcases h with heq | hlt
    · omega
    · apply Nat.pos_of_ne_zero
      intro hzero
      rw [hzero, Nat.zero_mul] at hlt
      exact Nat.not_lt_zero _ hlt
  have hone : (1 : BitVec 64).toNat = 1 := rfl
  rw [BitVec.toNat_sub, hone]
  omega

variable {u v : Digits32} {j k : Nat}

theorem window_setting (hnorm : 2 ^ 31 ≤ (v (k + 1)).toNat)
    (hfits : digitsVal u j (k + 3) < 2 ^ 32 * digitsVal v 0 (k + 2)) :
    Setting (2 ^ 32) (v (k + 1)).toNat (v k).toNat (u (j + (k + 2))).toNat
      (u (j + (k + 1))).toNat (u (j + k)).toNat ((2 ^ 32) ^ k) (digitsVal u j (k + 3))
      (digitsVal v 0 (k + 2)) := by
  have hlowV := digitsVal_lt v 0 k
  have hlowW := digitsVal_lt u j k
  have hV : digitsVal v 0 (k + 2) =
      digitsVal v 0 k + ((v (k + 1)).toNat * 2 ^ 32 + (v k).toNat) * (2 ^ 32) ^ k := by
    rw [digitsVal_succ, digitsVal_succ, Nat.zero_add, Nat.zero_add, pow_succ (2 ^ 32) k]
    ring
  have hW : digitsVal u j (k + 3) = digitsVal u j k + (((u (j + (k + 2))).toNat * 2 ^ 32 +
      (u (j + (k + 1))).toNat) * 2 ^ 32 + (u (j + k)).toNat) * (2 ^ 32) ^ k := by
    rw [digitsVal_succ, digitsVal_succ, digitsVal_succ, pow_succ (2 ^ 32) (k + 1), pow_succ (2 ^ 32) k]
    ring
  exact
    { normal := by omega
      v₁_lt := (v (k + 1)).isLt
      v₂_lt := (v k).isLt
      um_lt := (u (j + (k + 1))).isLt
      u₂_lt := (u (j + k)).isLt
      base := Nat.pow_pos (Nat.two_pow_pos 32)
      le_V := by
        rw [hV]
        exact Nat.le_add_left _ _
      V_lt := by
        rw [hV, Nat.succ_mul]
        omega
      le_W := by
        rw [hW]
        exact Nat.le_add_left _ _
      W_lt := by
        rw [hW, Nat.succ_mul]
        omega
      fits := hfits }

theorem trialDigit_toNat (hnorm : 2 ^ 31 ≤ (v (k + 1)).toNat)
    (hfits : digitsVal u j (k + 3) < 2 ^ 32 * digitsVal v 0 (k + 2)) :
    (trialDigit u v (k + 2) j).toNat =
      trial (2 ^ 32) (v (k + 1)).toNat (v k).toNat
        ((u (j + (k + 2))).toNat * 2 ^ 32 + (u (j + (k + 1))).toNat) (u (j + k)).toNat := by
  have hset := window_setting hnorm hfits
  have hguess := hset.guess_le
  have hrem := Nat.mod_lt ((u (j + (k + 2))).toNat * 2 ^ 32 + (u (j + (k + 1))).toNat) hset.v₁_pos
  have hv₁ := hset.v₁_lt
  have hq : (make64 (u (j + (k + 2))) (u (j + (k + 1))) / (v (k + 1)).setWidth 64).toNat =
      ((u (j + (k + 2))).toNat * 2 ^ 32 + (u (j + (k + 1))).toNat) / (v (k + 1)).toNat := by
    rw [BitVec.toNat_udiv, make64_toNat, setWidth64_toNat]
  have hr : (make64 (u (j + (k + 2))) (u (j + (k + 1))) % (v (k + 1)).setWidth 64).toNat =
      ((u (j + (k + 2))).toNat * 2 ^ 32 + (u (j + (k + 1))).toNat) % (v (k + 1)).toNat := by
    rw [BitVec.toNat_umod, make64_toNat, setWidth64_toNat]
  rw [← hq] at hguess
  rw [← hr] at hrem
  unfold trialDigit trial
  rw [← hq, ← hr]
  have h₁ : k + 2 - 1 = k + 1 := rfl
  have h₂ : k + 2 - 2 = k := rfl
  have h₃ : j + (k + 2) - 1 = j + (k + 1) := rfl
  have h₄ : j + (k + 2) - 2 = j + k := rfl
  rw [h₁, h₂, h₃, h₄]
  dsimp only
  generalize make64 (u (j + (k + 2))) (u (j + (k + 1))) / (v (k + 1)).setWidth 64 = qp at hguess ⊢
  generalize make64 (u (j + (k + 2))) (u (j + (k + 1))) % (v (k + 1)).setWidth 64 = rp at hrem ⊢
  have htest := test_toNat (u (j + k)) (v k) hguess (Nat.lt_trans hrem hv₁)
  by_cases hfirst :
      qp.toNat = 2 ^ 32 ∨ 2 ^ 32 * rp.toNat + (u (j + k)).toNat < qp.toNat * (v k).toNat
  · rw [if_pos (htest.mpr hfirst), if_pos hfirst]
    have hdec := dec_toNat hfirst
    have hadd : (rp + (v (k + 1)).setWidth 64).toNat = rp.toNat + (v (k + 1)).toNat := by
      rw [BitVec.toNat_add, setWidth64_toNat]
      omega
    rw [← hadd, ← hdec]
    have hb : ((1 : BitVec 64) <<< 32).toNat = 2 ^ 32 := rfl
    by_cases hsmall : (rp + (v (k + 1)).setWidth 64).toNat < 2 ^ 32
    · have htest' := test_toNat (u (j + k)) (v k)
        (by omega : (qp - 1).toNat ≤ 2 ^ 32 + 1) hsmall
      by_cases hsecond : (qp - 1).toNat = 2 ^ 32 ∨
          2 ^ 32 * (rp + (v (k + 1)).setWidth 64).toNat + (u (j + k)).toNat <
            (qp - 1).toNat * (v k).toNat
      · rw [if_pos ⟨BitVec.lt_def.mpr (by rw [hb]; exact hsmall), htest'.mpr hsecond⟩,
          if_pos ⟨hsmall, hsecond⟩]
        exact dec_toNat hsecond
      · rw [if_neg fun h => hsecond (htest'.mp h.2), if_neg fun h => hsecond h.2]
    · rw [if_neg fun h => hsmall (hb ▸ BitVec.lt_def.mp h.1), if_neg fun h => hsmall h.1]
  · rw [if_neg (mt htest.mp hfirst), if_neg hfirst]

/-! ## One digit -/

theorem slt_iff {x : BitVec 32} {y : BitVec 64} (hy : y.toNat < 2 ^ 32) :
    (x.setWidth 64).slt y = true ↔ x.toNat < y.toNat := by
  rw [BitVec.slt_iff_toInt_lt, BitVec.toInt_eq_toNat_of_lt (by rw [setWidth64_toNat]; omega),
    BitVec.toInt_eq_toNat_of_lt (by omega), setWidth64_toNat]
  omega

/--
The digit of the quotient of the window, which is left with the remainder. For
`W` and `V` see `window_setting`.
-/
theorem digitStep_spec (q : Digits32) (hnorm : 2 ^ 31 ≤ (v (k + 1)).toNat)
    (hfits : digitsVal u j (k + 3) < 2 ^ 32 * digitsVal v 0 (k + 2)) :
    let t := digitStep v (k + 2) j (u, q)
    (digitsVal t.1 j (k + 2) = digitsVal u j (k + 3) % digitsVal v 0 (k + 2) ∧
      (t.2 j).toNat = digitsVal u j (k + 3) / digitsVal v 0 (k + 2)) ∧
      (∀ i, i < j ∨ j + (k + 2) < i → t.1 i = u i) ∧ ∀ i, i ≠ j → t.2 i = q i := by
  have hset := window_setting hnorm hfits
  have hVpos := hset.V_pos
  obtain ⟨hge, hle, hlt⟩ := trial_spec hset
  rw [← trialDigit_toNat hnorm hfits] at hge hle hlt
  have hW : digitsVal u j (k + 3) =
      digitsVal u j (k + 2) + (u (j + (k + 2))).toNat * (2 ^ 32) ^ (k + 2) := digitsVal_succ u j (k + 2)
  obtain ⟨⟨hsub, hborrow⟩, hframe⟩ := mulSub_spec hlt v j (k + 2) u
  rw [digitStep]
  generalize trialDigit u v (k + 2) j = qp at *
  generalize mulSub qp v j (k + 2) u = mul at *
  rcases mul with ⟨u₁, borrow⟩
  dsimp only at hsub hborrow hframe ⊢
  have hV := digitsVal_lt v 0 (k + 2)
  have hL := digitsVal_lt u₁ j (k + 2)
  have htop := hframe (j + (k + 2)) (Or.inr (Nat.le_refl _))
  have hdiv := Nat.div_add_mod (digitsVal u j (k + 3)) (digitsVal v 0 (k + 2))
  have hmod := Nat.mod_lt (digitsVal u j (k + 3)) hVpos
  have hlo : (lo32 qp).toNat = qp.toNat := by rw [lo32_toNat, Nat.mod_eq_of_lt hlt]
  generalize digitsVal u j (k + 3) % digitsVal v 0 (k + 2) = R at hdiv hmod ⊢
  generalize digitsVal u j (k + 3) / digitsVal v 0 (k + 2) = Q at hge hle hdiv ⊢
  rw [← htop] at hW
  -- the window less the multiple, with what it lacks of the power
  have hmul : digitsVal u₁ j (k + 2) + qp.toNat * digitsVal v 0 (k + 2) +
      (u₁ (j + (k + 2))).toNat * (2 ^ 32) ^ (k + 2) =
        digitsVal u j (k + 3) + borrow.toNat * (2 ^ 32) ^ (k + 2) := by omega
  by_cases hneg : (u₁ (j + (k + 2))).toNat < borrow.toNat
  · rw [if_pos ((slt_iff (by omega)).mpr hneg)]
    obtain ⟨e, he⟩ := Nat.exists_eq_add_of_lt hneg
    rw [Nat.add_assoc] at he
    rw [he, Nat.add_mul _ (e + 1)] at hmul
    have hpos : (2 ^ 32) ^ (k + 2) ≤ (e + 1) * (2 ^ 32) ^ (k + 2) :=
      Nat.le_mul_of_pos_left _ (Nat.succ_pos e)
    have hqp : qp.toNat = Q + 1 := by
      by_contra hne
      have heq : qp.toNat = Q := by omega
      rw [heq, Nat.mul_comm Q] at hmul
      omega
    obtain ⟨hadd, hframe'⟩ := addBack_spec v j (k + 2)
      (Function.update u₁ (j + (k + 2)) (u₁ (j + (k + 2)) - lo32 borrow))
    rw [digitsVal_update u₁ _ _ _ (Nat.le_refl _)] at hadd
    generalize addBack v j (k + 2) _ = back at hadd hframe' ⊢
    rcases back with ⟨u₂, carry⟩
    dsimp only at hadd hframe' ⊢
    have hval : digitsVal u₂ j (k + 2) = R := by
      apply And.left
      apply Digits.split_unique (digitsVal_lt u₂ j (k + 2)) (Nat.lt_trans hmod hV)
        (s := (carryIn carry).toNat) (t := e + 1)
      rw [hqp, Nat.succ_mul, Nat.mul_comm Q] at hmul
      omega
    refine ⟨⟨?_, ?_⟩, ?_, ?_⟩
    · rw [digitsVal_update _ _ _ _ (Nat.le_refl _), hval]
    · have hone : (1 : BitVec 32).toNat = 1 := rfl
      rw [Function.update_self, Function.update_self, BitVec.toNat_sub, hlo, hqp, hone]
      omega
    · intro i hi
      rw [Function.update_of_ne (by omega), hframe' i (by omega), Function.update_of_ne (by omega),
        hframe i (by omega)]
    · intro i hi
      rw [Function.update_of_ne hi, Function.update_of_ne hi]
  · rw [if_neg (mt (slt_iff (by omega)).mp hneg)]
    obtain ⟨d, hd⟩ := Nat.exists_eq_add_of_le (Nat.not_lt.mp hneg)
    rw [hd, Nat.add_mul] at hmul
    dsimp only
    have hqp : qp.toNat = Q := by
      by_contra hne
      have heq : qp.toNat = Q + 1 := by omega
      rw [heq, Nat.succ_mul, Nat.mul_comm Q] at hmul
      omega
    have hval : digitsVal u₁ j (k + 2) = R := by
      apply And.left
      apply Digits.split_unique hL (Nat.lt_trans hmod hV) (s := d) (t := 0)
      rw [hqp, Nat.mul_comm Q] at hmul
      omega
    refine ⟨⟨?_, ?_⟩, ?_, ?_⟩
    · rw [digitsVal_update _ _ _ _ (Nat.le_refl _), hval]
    · rw [Function.update_self, hlo, hqp]
    · intro i hi
      exact (Function.update_of_ne (by omega) _ _).trans (hframe i (by omega))
    · intro i hi
      exact Function.update_of_ne hi _ _

theorem digitSteps_spec (q : Digits32) (m : Nat) (hnorm : 2 ^ 31 ≤ (v (k + 1)).toNat)
    (htop : digitsVal u (m + 1) (k + 2) < digitsVal v 0 (k + 2)) :
    let t := downFrom (digitStep v (k + 2)) (m + 1) (u, q)
    (digitsVal t.2 0 (m + 1) = digitsVal u 0 (m + k + 3) / digitsVal v 0 (k + 2) ∧
      digitsVal t.1 0 (k + 2) = digitsVal u 0 (m + k + 3) % digitsVal v 0 (k + 2)) ∧
      ∀ i, m < i → t.2 i = q i := by
  have hrule := downFrom_rule (fun i (t : Digits32 × Digits32) =>
    (digitsVal v 0 (k + 2) * ((2 ^ 32) ^ i * digitsVal t.2 i (m + 1 - i)) + digitsVal t.1 0 (i + (k + 2)) =
        digitsVal u 0 (m + k + 3) ∧ digitsVal t.1 i (k + 2) < digitsVal v 0 (k + 2)) ∧ ∀ l, m < l → t.2 l = q l)
    (f := digitStep v (k + 2)) (n := m + 1) (s := (u, q)) ⟨⟨?_, htop⟩, fun _ _ => rfl⟩ ?_
  · generalize downFrom (digitStep v (k + 2)) (m + 1) (u, q) = t at hrule ⊢
    obtain ⟨⟨hval, hlt⟩, hframe⟩ := hrule
    rw [pow_zero, Nat.one_mul, Nat.sub_zero, Nat.zero_add, Nat.add_comm] at hval
    obtain ⟨hdiv, hmod⟩ := (Nat.div_mod_unique (Nat.lt_of_le_of_lt (Nat.zero_le _) hlt)).mpr
      ⟨hval, hlt⟩
    exact ⟨⟨hdiv.symm, hmod.symm⟩, hframe⟩
  · have hlen : m + 1 + (k + 2) = m + k + 3 := by omega
    rw [Nat.sub_self, hlen]
    change digitsVal v 0 (k + 2) * ((2 ^ 32) ^ (m + 1) * 0) + _ = _
    rw [Nat.mul_zero, Nat.mul_zero, Nat.zero_add]
  · rintro i ⟨u', q'⟩ hi ⟨⟨hval, hlt⟩, hframe⟩
    dsimp only at hval hlt hframe
    have hwindow : digitsVal u' i (k + 3) = (u' i).toNat + 2 ^ 32 * digitsVal u' (i + 1) (k + 2) :=
      digitsVal_succ' u' i (k + 2)
    obtain ⟨⟨hrem, hquot⟩, hu, hq⟩ := digitStep_spec (u := u') (j := i) q' hnorm (by omega)
    generalize digitStep v (k + 2) i (u', q') = t at hrem hquot hu hq ⊢
    have hpos : 0 < digitsVal v 0 (k + 2) := Nat.lt_of_le_of_lt (Nat.zero_le _) hlt
    refine ⟨⟨?_, ?_⟩, ?_⟩
    · have hlen : m + 1 - i = m + 1 - (i + 1) + 1 := by omega
      have hlen' : i + 1 + (k + 2) = i + (k + 3) := by omega
      have hlow : digitsVal t.1 0 i = digitsVal u' 0 i := by
        apply digitsVal_congr
        intro l hl
        exact hu _ (by omega)
      have hhigh : digitsVal t.2 (i + 1) (m + 1 - (i + 1)) = digitsVal q' (i + 1) (m + 1 - (i + 1)) := by
        apply digitsVal_congr
        intro l hl
        exact hq _ (by omega)
      rw [hlen', digitsVal_add u', Nat.zero_add] at hval
      rw [hlen, digitsVal_succ' t.2, hhigh, hquot, digitsVal_add t.1, Nat.zero_add, hlow, hrem, ← hval,
        pow_succ (2 ^ 32) i]
      have hdiv := Nat.div_add_mod (digitsVal u' i (k + 3)) (digitsVal v 0 (k + 2))
      generalize digitsVal u' i (k + 3) / digitsVal v 0 (k + 2) = Q at hdiv ⊢
      generalize digitsVal u' i (k + 3) % digitsVal v 0 (k + 2) = R at hdiv ⊢
      rw [← hdiv]
      ring
    · rw [hrem]
      exact Nat.mod_lt _ hpos
    · intro l hl
      exact (hq l (by omega)).trans (hframe l hl)

theorem shiftRight_digit {x c : BitVec 32} {s low : Nat} (hs : s < 32)
    (hc : c.toNat = low * 2 ^ (32 - s)) :
    2 ^ s * (x >>> s ||| c).toNat + x.toNat % 2 ^ s = x.toNat + low * 2 ^ 32 ∧
      (x <<< (32 - s)).toNat = x.toNat % 2 ^ s * 2 ^ (32 - s) := by
  have hsplit : 2 ^ (32 - s) * 2 ^ s = 2 ^ 32 := by
    rw [← Nat.pow_add, Nat.sub_add_cancel (Nat.le_of_lt hs)]
  have hx := x.isLt
  have hhigh : (x >>> s).toNat = x.toNat / 2 ^ s := by
    rw [Words.toNat_shr]
  have hlt : (x >>> s).toNat < 2 ^ (32 - s) := by
    rw [hhigh, Nat.div_lt_iff_lt_mul (Nat.two_pow_pos s), hsplit]
    exact hx
  refine ⟨?_, ?_⟩
  · rw [BitVec.toNat_or, hc, Nat.or_comm, Nat.mul_comm low,
      ← Nat.two_pow_add_eq_or_of_lt hlt, hhigh]
    have hdiv := Nat.div_add_mod x.toNat (2 ^ s)
    calc 2 ^ s * (2 ^ (32 - s) * low + x.toNat / 2 ^ s) + x.toNat % 2 ^ s
        = 2 ^ s * (x.toNat / 2 ^ s) + x.toNat % 2 ^ s + low * (2 ^ (32 - s) * 2 ^ s) := by ring
      _ = x.toNat + low * 2 ^ 32 := by rw [hdiv, hsplit]
  · rw [Words.toNat_shl, ← hsplit, Nat.mul_comm, Nat.mul_mod_mul_left,
      Nat.mul_comm]

theorem unnormalize_spec {s : Nat} (hs : s < 32) (n : Nat) (u r : Digits32) :
    digitsVal (unnormalize s n u r) 0 n = digitsVal u 0 n / 2 ^ s ∧
      ∀ i, n ≤ i → unnormalize s n u r i = r i := by
  unfold unnormalize
  by_cases hzero : s ≠ 0
  · rw [if_pos hzero]
    have hrule := downFrom_rule (fun i (t : Digits32 × BitVec 32) =>
      (∃ low, low < 2 ^ s ∧ t.2.toNat = low * 2 ^ (32 - s) ∧
        2 ^ s * digitsVal t.1 i (n - i) + low = digitsVal u i (n - i)) ∧ ∀ l, n ≤ l → t.1 l = r l)
      (f := fun i (t : Digits32 × BitVec 32) =>
        (Function.update t.1 i (u i >>> s ||| t.2), u i <<< (32 - s)))
      (n := n) (s := (r, 0)) ⟨⟨0, Nat.two_pow_pos s, ?_, ?_⟩, fun _ _ => rfl⟩ ?_
    · generalize downFrom _ n (r, 0) = t at hrule ⊢
      obtain ⟨⟨low, hlow, _, hval⟩, hframe⟩ := hrule
      rw [Nat.sub_zero] at hval
      refine ⟨?_, hframe⟩
      rw [← hval, Nat.mul_add_div (Nat.two_pow_pos s), Nat.div_eq_of_lt hlow, Nat.add_zero]
    · rw [Nat.zero_mul]
      rfl
    · rw [Nat.sub_self]
      rfl
    · rintro i ⟨r', c⟩ hi ⟨⟨low, hlow, hc, hval⟩, hframe⟩
      obtain ⟨hdigit, hout⟩ := shiftRight_digit (x := u i) hs hc
      refine ⟨⟨(u i).toNat % 2 ^ s, Nat.mod_lt _ (Nat.two_pow_pos s), hout, ?_⟩, ?_⟩
      · have hlen : n - i = n - (i + 1) + 1 := by omega
        have hhigh : digitsVal (Function.update r' i (u i >>> s ||| c)) (i + 1) (n - (i + 1)) =
            digitsVal r' (i + 1) (n - (i + 1)) := by
          apply digitsVal_congr
          intro l hl
          exact Function.update_of_ne (by omega) _ _
        dsimp only
        rw [hlen, digitsVal_succ', digitsVal_succ', hhigh, Function.update_self, ← hval]
        generalize (u i >>> s ||| c).toNat = digit at hdigit ⊢
        generalize digitsVal r' (i + 1) (n - (i + 1)) = high
        rw [Nat.mul_add, Nat.mul_add, Nat.mul_left_comm]
        omega
      · intro l hl
        exact (Function.update_of_ne (by omega) _ _).trans (hframe l hl)
  · rw [if_neg hzero, not_not.mp hzero, pow_zero, Nat.div_one]
    have hrule := downFrom_rule (fun i (t : Digits32) =>
      (∀ l, i ≤ l → l < n → t l = u l) ∧ ∀ l, n ≤ l → t l = r l)
      (f := fun i r => Function.update r i (u i)) (n := n) (s := r)
      ⟨fun l hl hn => absurd hn (Nat.not_lt.mpr hl), fun _ _ => rfl⟩ ?_
    · refine ⟨digitsVal_congr ?_, hrule.2⟩
      intro l hl
      exact hrule.1 _ (Nat.zero_le _) (by omega)
    · rintro i r' hi ⟨hval, hframe⟩
      refine ⟨?_, ?_⟩
      · intro l hl hn
        rcases Nat.eq_or_lt_of_le hl with heq | hlt
        · rw [← heq, Function.update_self]
        · rw [Function.update_of_ne (by omega), hval l hlt hn]
      · intro l hl
        rw [Function.update_of_ne (by omega), hframe l hl]

/-! ## The division -/

theorem leadingZeros_spec {x : BitVec 32} (hx : x ≠ 0) :
    countl_zero x < 32 ∧ 2 ^ 31 ≤ x.toNat * 2 ^ countl_zero x ∧
      (x.toNat + 1) * 2 ^ countl_zero x ≤ 2 ^ 32 := by
  have hpos : x.toNat ≠ 0 := Nat.ne_of_gt (toNat_ne_zero.mp hx)
  have hlo := Nat.log2_self_le hpos
  have hhi := Nat.lt_log2_self (n := x.toNat)
  have hlt : x.toNat.log2 < 32 := (Nat.log2_lt hpos).mpr x.isLt
  have heq := countl_zero_eq hlo hhi
  have hlow : 2 ^ x.toNat.log2 * 2 ^ countl_zero x = 2 ^ 31 := by
    rw [heq, ← Nat.pow_add]
    congr 1
    omega
  refine ⟨by omega, ?_, ?_⟩
  · rw [← hlow]
    exact Nat.mul_le_mul_right _ hlo
  · calc (x.toNat + 1) * 2 ^ countl_zero x
        ≤ 2 ^ (x.toNat.log2 + 1) * 2 ^ countl_zero x := Nat.mul_le_mul_right _ hhi
      _ = 2 ^ 31 * 2 := by rw [pow_succ 2 x.toNat.log2, Nat.mul_right_comm, hlow]
      _ = 2 ^ 32 := rfl

theorem shifted_spec {s : Nat} (hs : s < 32) (n : Nat) (u : Digits32) :
    let t := if s ≠ 0 then normalize s n u else (u, 0)
    digitsVal t.1 0 n + t.2.toNat * (2 ^ 32) ^ n = digitsVal u 0 n * 2 ^ s ∧ t.2.toNat < 2 ^ s := by
  intro t
  by_cases hzero : s ≠ 0
  · have ht : t = normalize s n u := if_pos hzero
    rw [ht]
    exact (normalize_spec hs n u).1
  · have ht : t = (u, 0) := if_neg hzero
    rw [ht, not_not.mp hzero, pow_zero, Nat.mul_one]
    refine ⟨?_, Nat.one_pos⟩
    change digitsVal u 0 n + 0 * _ = _
    rw [Nat.zero_mul, Nat.add_zero]

theorem divisor_spec {v : Digits32} {k : Nat} (hv : v (k + 1) ≠ 0) :
    let s := countl_zero (v (k + 1))
    let v' := if s ≠ 0 then (normalize s (k + 2) v).1 else v
    digitsVal v' 0 (k + 2) = digitsVal v 0 (k + 2) * 2 ^ s ∧ 2 ^ 31 ≤ (v' (k + 1)).toNat := by
  intro s v'
  obtain ⟨hs, hnorm, hfits⟩ : s < 32 ∧ 2 ^ 31 ≤ (v (k + 1)).toNat * 2 ^ s ∧
      ((v (k + 1)).toNat + 1) * 2 ^ s ≤ 2 ^ 32 := leadingZeros_spec hv
  obtain ⟨hval, _⟩ := shifted_spec hs (k + 2) v
  have hv' : v' = (if s ≠ 0 then normalize s (k + 2) v else (v, 0)).1 := by
    change (if s ≠ 0 then _ else _) = _
    split
    · rfl
    · rfl
  rw [← hv'] at hval
  generalize (if s ≠ 0 then normalize s (k + 2) v else (v, 0)).2.toNat = carry at hval
  have hlow := digitsVal_lt v 0 (k + 1)
  have hlow' := digitsVal_lt v' 0 (k + 1)
  have hsplit : digitsVal v 0 (k + 2) = digitsVal v 0 (k + 1) + (v (k + 1)).toNat * (2 ^ 32) ^ (k + 1) := by
    rw [digitsVal_succ, Nat.zero_add]
  have hsplit' : digitsVal v' 0 (k + 2) =
      digitsVal v' 0 (k + 1) + (v' (k + 1)).toNat * (2 ^ 32) ^ (k + 1) := by
    rw [digitsVal_succ, Nat.zero_add]
  have hupper : digitsVal v 0 (k + 2) * 2 ^ s < (2 ^ 32) ^ (k + 2) := by
    calc digitsVal v 0 (k + 2) * 2 ^ s
        < ((v (k + 1)).toNat + 1) * (2 ^ 32) ^ (k + 1) * 2 ^ s := by
          apply Nat.mul_lt_mul_of_pos_right _ (Nat.two_pow_pos s)
          rw [hsplit, Nat.succ_mul]
          omega
      _ = ((v (k + 1)).toNat + 1) * 2 ^ s * (2 ^ 32) ^ (k + 1) := Nat.mul_right_comm _ _ _
      _ ≤ 2 ^ 32 * (2 ^ 32) ^ (k + 1) := Nat.mul_le_mul_right _ hfits
      _ = (2 ^ 32) ^ (k + 2) := (pow_succ' (2 ^ 32) (k + 1)).symm
  have hlower : 2 ^ 31 * (2 ^ 32) ^ (k + 1) ≤ digitsVal v 0 (k + 2) * 2 ^ s := by
    calc 2 ^ 31 * (2 ^ 32) ^ (k + 1) ≤ (v (k + 1)).toNat * 2 ^ s * (2 ^ 32) ^ (k + 1) :=
          Nat.mul_le_mul_right _ hnorm
      _ = (v (k + 1)).toNat * (2 ^ 32) ^ (k + 1) * 2 ^ s := Nat.mul_right_comm _ _ _
      _ ≤ digitsVal v 0 (k + 2) * 2 ^ s := by
          apply Nat.mul_le_mul_right
          rw [hsplit]
          exact Nat.le_add_left _ _
  have hcarry : carry = 0 := by
    by_contra hne
    have hmul := Nat.le_mul_of_pos_left ((2 ^ 32) ^ (k + 2)) (Nat.pos_of_ne_zero hne)
    omega
  rw [hcarry, Nat.zero_mul, Nat.add_zero] at hval
  refine ⟨hval, ?_⟩
  by_contra htop
  have hmul := Nat.mul_le_mul_right ((2 ^ 32) ^ (k + 1)) (Nat.not_le.mp htop)
  rw [Nat.succ_mul] at hmul
  omega

end KnuthDiv

open KnuthDiv in
theorem knuthDiv_spec (u v q : Digits32) (r : Option Digits32) (m : Nat) {n : Nat} (hn : 1 < n)
    (hv : v (n - 1) ≠ 0) :
    ∃ (q' : Digits32) (rem : Digits32 → Digits32), knuthDiv u v q r m n = some (q', r.map rem) ∧
      (digitsVal q' 0 (m + 1) = digitsVal u 0 (m + n) / digitsVal v 0 n ∧ ∀ i, m < i → q' i = q i) ∧
      ∀ r, digitsVal (rem r) 0 n = digitsVal u 0 (m + n) % digitsVal v 0 n ∧ ∀ i, n ≤ i → rem r i = r i := by
  obtain ⟨k, rfl⟩ := Nat.exists_eq_add_of_le' hn
  have hpred : k + 2 - 1 = k + 1 := rfl
  rw [hpred] at hv
  have hrun : knuthDiv u v q r m (k + 2) =
      let s := countl_zero (v (k + 1))
      let t := if s ≠ 0 then normalize s (m + (k + 2)) u else (u, 0)
      let v' := if s ≠ 0 then (normalize s (k + 2) v).1 else v
      let w := downFrom (digitStep v' (k + 2)) (m + 1) (Function.update t.1 (m + (k + 2)) t.2, q)
      some (w.2, r.map (unnormalize s (k + 2) w.1)) := by
    unfold knuthDiv guard
    rw [if_pos hn]
    rfl
  obtain ⟨hs, _, _⟩ := leadingZeros_spec hv
  obtain ⟨hval, hnorm⟩ := divisor_spec hv
  obtain ⟨hdividend, hcarry⟩ := shifted_spec hs (m + (k + 2)) u
  rw [hrun]
  dsimp only at hval hnorm hdividend hcarry ⊢
  generalize countl_zero (v (k + 1)) = s at hs hval hnorm hdividend hcarry ⊢
  generalize (if s ≠ 0 then (normalize s (k + 2) v).1 else v) = v' at hval hnorm ⊢
  generalize (if s ≠ 0 then normalize s (m + (k + 2)) u else (u, 0)) = t at hdividend hcarry ⊢
  have hu : digitsVal (Function.update t.1 (m + (k + 2)) t.2) 0 (m + k + 3) =
      digitsVal u 0 (m + (k + 2)) * 2 ^ s := by
    have hlen : m + k + 3 = m + (k + 2) + 1 := rfl
    rw [hlen, digitsVal_succ, Nat.zero_add, Function.update_self,
      digitsVal_update _ _ _ _ (Nat.le_of_eq (Nat.zero_add _)), hdividend]
  generalize Function.update t.1 (m + (k + 2)) t.2 = u' at hu ⊢
  have hlower : (2 ^ 32) ^ (k + 1) ≤ digitsVal v 0 (k + 2) := by
    rw [digitsVal_succ, Nat.zero_add]
    have hmul := Nat.le_mul_of_pos_left ((2 ^ 32) ^ (k + 1)) (toNat_ne_zero.mp hv)
    omega
  have htop : digitsVal u' (m + 1) (k + 2) < digitsVal v' 0 (k + 2) := by
    rw [hval]
    have hlen : m + k + 3 = m + 1 + (k + 2) := by omega
    have hlen' : m + (k + 2) = m + 1 + (k + 1) := by omega
    apply Nat.lt_of_mul_lt_mul_left (a := (2 ^ 32) ^ (m + 1))
    calc (2 ^ 32) ^ (m + 1) * digitsVal u' (m + 1) (k + 2)
        ≤ digitsVal u' 0 (m + k + 3) := by
          rw [hlen, digitsVal_add u' 0, Nat.zero_add]
          exact Nat.le_add_left _ _
      _ = digitsVal u 0 (m + (k + 2)) * 2 ^ s := hu
      _ < (2 ^ 32) ^ (m + (k + 2)) * 2 ^ s :=
          Nat.mul_lt_mul_of_pos_right (digitsVal_lt u 0 _) (Nat.two_pow_pos s)
      _ = (2 ^ 32) ^ (m + 1) * ((2 ^ 32) ^ (k + 1) * 2 ^ s) := by
          rw [hlen', Nat.pow_add, Nat.mul_assoc]
      _ ≤ (2 ^ 32) ^ (m + 1) * (digitsVal v 0 (k + 2) * 2 ^ s) :=
          Nat.mul_le_mul_left _ (Nat.mul_le_mul_right _ hlower)
  obtain ⟨⟨hquot, hrem⟩, hframe⟩ := digitSteps_spec q m hnorm htop
  rw [hu, hval] at hquot hrem
  rw [Nat.mul_div_mul_right _ _ (Nat.two_pow_pos s)] at hquot
  rw [Nat.mul_mod_mul_right] at hrem
  refine ⟨_, _, rfl, ⟨hquot, hframe⟩, ?_⟩
  intro r
  obtain ⟨hback, hframe'⟩ := unnormalize_spec hs (k + 2)
    (downFrom (digitStep v' (k + 2)) (m + 1) (u', q)).1 r
  rw [hrem, Nat.mul_div_cancel _ (Nat.two_pow_pos s)] at hback
  exact ⟨hback, hframe'⟩

end SmlnjLlvm.Support
