import SmlnjLlvm.Library.MagicDivision
import Mathlib.Data.BitVec

/-!
# Machine words as numbers

Word operations on values that are known up to a multiple of the word size.
A result that fits is the exact one, whatever wrapped around before.
-/

namespace SmlnjLlvm.Words

open MagicDivision

variable {w : Nat}

theorem toNat_one (hw : 0 < w) : (1 : BitVec w).toNat = 1 := BitVec.toNat_one hw

theorem two_pow_eq (hw : 0 < w) : 2 ^ w = 2 * 2 ^ (w - 1) := by
  rw [← Nat.pow_succ', Nat.succ_eq_add_one, Nat.sub_add_cancel hw]

theorem cast_two_pow (k : Nat) : ((2 ^ k : Nat) : Int) = 2 ^ k := Nat.cast_pow 2 k

theorem int_two_pow_pos (k : Nat) : (0 : Int) < 2 ^ k := Int.pow_pos (by decide)

theorem toNat_shr (x : BitVec w) (n : Nat) : (x >>> n).toNat = x.toNat / 2 ^ n := by
  rw [BitVec.toNat_ushiftRight, Nat.shiftRight_eq_div_pow]

theorem toNat_shl (x : BitVec w) (n : Nat) : (x <<< n).toNat = x.toNat * 2 ^ n % 2 ^ w := by
  rw [BitVec.toNat_shiftLeft, Nat.shiftLeft_eq]

theorem toNat_shiftLeft_one (x : BitVec w) : (x <<< 1).toNat = 2 * x.toNat % 2 ^ w := by
  rw [BitVec.toNat_shiftLeft, Nat.shiftLeft_eq, pow_one, Nat.mul_comm]

theorem toNat_shiftLeft_one_add_one (hw : 0 < w) (x : BitVec w) :
    (x <<< 1 + 1).toNat = (2 * x.toNat + 1) % 2 ^ w := by
  rw [BitVec.toNat_add, toNat_shiftLeft_one, toNat_one hw, Nat.mod_add_mod]

theorem toNat_sub_of_mod {a b : BitVec w} {n : Nat} (ha : a.toNat = n % 2 ^ w) (hle : b.toNat ≤ n)
    (hlt : n - b.toNat < 2 ^ w) : (a - b).toNat = n - b.toNat := by
  have hsum : 2 ^ w - b.toNat + n = n - b.toNat + 2 ^ w := by
    omega
  rw [BitVec.toNat_sub, ha, Nat.add_mod_mod, hsum, Nat.add_mod_right, Nat.mod_eq_of_lt hlt]

theorem toNat_sub_of_le {a b : BitVec w} (h : b.toNat ≤ a.toNat) :
    (a - b).toNat = a.toNat - b.toNat :=
  toNat_sub_of_mod (Nat.mod_eq_of_lt a.isLt).symm h (Nat.lt_of_le_of_lt (Nat.sub_le _ _) a.isLt)

theorem toNat_add_of_lt {a b : BitVec w} (h : a.toNat + b.toNat < 2 ^ w) :
    (a + b).toNat = a.toNat + b.toNat :=
  BitVec.toNat_add_of_lt h

theorem toNat_add_one (hw : 0 < w) (a : BitVec w) : (a + 1).toNat = (a.toNat + 1) % 2 ^ w := by
  rw [BitVec.toNat_add, toNat_one hw]

theorem toNat_shiftLeft_one_or {x y : BitVec w} (hw : 0 < w) (hy : y.toNat ≤ 1) :
    (x <<< 1 ||| y).toNat = (2 * x.toNat + y.toNat) % 2 ^ w := by
  have hhalf : 2 * x.toNat % 2 ^ w = 2 * (x.toNat % 2 ^ (w - 1)) := by
    rw [two_pow_eq hw, Nat.mul_mod_mul_left]
  have hor : 2 * (x.toNat % 2 ^ (w - 1)) ||| y.toNat = 2 * (x.toNat % 2 ^ (w - 1)) + y.toNat := by
    have hshift := Nat.shiftLeft_add_eq_or_of_lt (i := 1) (b := y.toNat) (by omega)
      (x.toNat % 2 ^ (w - 1))
    exact hshift.symm
  have htwo := two_pow_eq hw
  have hfit : 2 * (x.toNat % 2 ^ (w - 1)) + y.toNat < 2 ^ w := by omega
  calc (x <<< 1 ||| y).toNat = 2 * (x.toNat % 2 ^ (w - 1)) + y.toNat := by
        rw [BitVec.toNat_or, toNat_shiftLeft_one, hhalf, hor]
    _ = (2 * (x.toNat % 2 ^ (w - 1)) + y.toNat) % 2 ^ w := (Nat.mod_eq_of_lt hfit).symm
    _ = (2 * x.toNat + y.toNat) % 2 ^ w := by rw [← hhalf, Nat.mod_add_mod]

theorem sshiftRight_pred (hw : 0 < w) (x : BitVec w) :
    x.sshiftRight (w - 1) = if x.msb then BitVec.allOnes w else 0 := by
  ext i hi
  rw [BitVec.getElem_sshiftRight]
  by_cases hsum : w - 1 + i < w
  · have hlast : w - 1 + i = w - 1 := by omega
    rw [dif_pos hsum]
    rw [BitVec.msb_eq_getLsbD_last, BitVec.getLsbD_eq_getElem (by omega)]
    cases hm : x[w - 1] <;> simp [hlast, hm]
  · rw [dif_neg hsum]
    cases hm : x.msb <;> simp

/-! ## Doubling a quotient with its remainder -/

/-- The word `Q` is the wrapped quotient of `a` by `B`, and `R` is the remainder. -/
structure DivMod (B : BitVec w) (a : Nat) (Q R : BitVec w) : Prop where
  quot : Q.toNat = a / B.toNat % 2 ^ w
  rem : R.toNat = a % B.toNat

theorem DivMod.rem_lt {B Q R : BitVec w} {a : Nat} (h : DivMod B a Q R) (hB : 0 < B.toNat) :
    R.toNat < B.toNat := by
  rw [h.rem]
  exact Nat.mod_lt a hB

theorem DivMod.double {B Q R Q' R' : BitVec w} {a c : Nat} (h : DivMod B a Q R) (hB : 0 < B.toNat)
    (hc : c ≤ 1)
    (hQ : Q'.toNat = (2 * Q.toNat + if B.toNat ≤ 2 * R.toNat + c then 1 else 0) % 2 ^ w)
    (hR : R'.toNat = 2 * R.toNat + c - if B.toNat ≤ 2 * R.toNat + c then B.toNat else 0) :
    DivMod B (2 * a + c) Q' R' := by
  obtain ⟨hquot, hrem⟩ := div_double a B.toNat hB hc
  rw [h.rem] at hQ hR
  refine ⟨?_, ?_⟩
  · rw [hQ, hquot, h.quot, ← Nat.mod_add_mod, Nat.mul_mod_mod, Nat.mod_add_mod]
  · rw [hR, hrem]

/-!
## Cases of word arithmetic

Each operation on words is the operation on numbers, up to one multiple of the
word size. The cases are stated for linear arithmetic: `toNat` is unsigned and
`toInt` is signed.
-/

theorem toInt_sign_cases (v : BitVec w) :
    (2 * v.toNat < 2 ^ w ∧ v.toInt = v.toNat) ∨
      (2 ^ w ≤ 2 * v.toNat ∧ v.toInt = v.toNat - (2 ^ w : Nat)) := by
  rw [BitVec.toInt_eq_toNat_cond]
  split
  · exact Or.inl ⟨‹_›, rfl⟩
  · exact Or.inr ⟨Nat.not_lt.mp ‹_›, rfl⟩

theorem toNat_intMin (hw : 0 < w) : (BitVec.intMin w).toNat = 2 ^ (w - 1) :=
  BitVec.toNat_intMin_of_pos hw

theorem toNat_intMax : (BitVec.intMax w).toNat = 2 ^ (w - 1) - 1 := BitVec.toNat_intMax

theorem toNat_sub_one_cases (hw : 0 < w) (v : BitVec w) :
    (v.toNat = 0 ∧ (v - 1).toNat = 2 ^ w - 1) ∨ (0 < v.toNat ∧ (v - 1).toNat = v.toNat - 1) := by
  rw [BitVec.toNat_sub, toNat_one hw]
  rcases Nat.eq_zero_or_pos v.toNat with hzero | hpos
  · rw [hzero, Nat.add_zero, Nat.mod_eq_of_lt (by omega)]
    exact Or.inl ⟨rfl, rfl⟩
  · have hsum : 2 ^ w - 1 + v.toNat = 2 ^ w + (v.toNat - 1) := by omega
    rw [hsum, Nat.add_mod_left, Nat.mod_eq_of_lt (by omega)]
    exact Or.inr ⟨hpos, rfl⟩

theorem toNat_add_one_cases (hw : 0 < w) (v : BitVec w) :
    (v.toNat = 2 ^ w - 1 ∧ (v + 1).toNat = 0) ∨
      (v.toNat + 1 < 2 ^ w ∧ (v + 1).toNat = v.toNat + 1) := by
  rw [toNat_add_one hw]
  by_cases hmax : v.toNat + 1 = 2 ^ w
  · rw [hmax, Nat.mod_self]
    exact Or.inl ⟨by omega, rfl⟩
  · rw [Nat.mod_eq_of_lt (by omega)]
    exact Or.inr ⟨by omega, rfl⟩

theorem toNat_add_cases (a b : BitVec w) :
    (a.toNat + b.toNat < 2 ^ w ∧ (a + b).toNat = a.toNat + b.toNat) ∨
      (2 ^ w ≤ a.toNat + b.toNat ∧ (a + b).toNat + 2 ^ w = a.toNat + b.toNat) := by
  rw [BitVec.toNat_add]
  rcases Nat.lt_or_ge (a.toNat + b.toNat) (2 ^ w) with hlt | hge
  · exact Or.inl ⟨hlt, Nat.mod_eq_of_lt hlt⟩
  · refine Or.inr ⟨hge, ?_⟩
    rw [Nat.mod_eq_sub_mod hge, Nat.mod_eq_of_lt (by omega)]
    omega

theorem toNat_sub_cases (a b : BitVec w) :
    (b.toNat ≤ a.toNat ∧ (a - b).toNat = a.toNat - b.toNat) ∨
      (a.toNat < b.toNat ∧ (a - b).toNat + b.toNat = a.toNat + 2 ^ w) := by
  rcases Nat.lt_or_ge a.toNat b.toNat with hlt | hge
  · refine Or.inr ⟨hlt, ?_⟩
    rw [BitVec.toNat_sub, Nat.mod_eq_of_lt (by omega)]
    omega
  · exact Or.inl ⟨hge, toNat_sub_of_le hge⟩

theorem toNat_neg_cases (a : BitVec w) :
    (a.toNat = 0 ∧ (-a).toNat = 0) ∨ (0 < a.toNat ∧ (-a).toNat + a.toNat = 2 ^ w) := by
  rw [BitVec.toNat_neg]
  rcases Nat.eq_zero_or_pos a.toNat with hzero | hpos
  · rw [hzero, Nat.sub_zero, Nat.mod_self]
    exact Or.inl ⟨rfl, rfl⟩
  · rw [Nat.mod_eq_of_lt (by omega)]
    omega

theorem msb_cases (a : BitVec w) :
    (a.msb = false ∧ a.toNat < 2 ^ (w - 1)) ∨ (a.msb = true ∧ 2 ^ (w - 1) ≤ a.toNat) := by
  rw [BitVec.msb_eq_decide]
  rcases Nat.lt_or_ge a.toNat (2 ^ (w - 1)) with hlt | hge
  · exact Or.inl ⟨decide_eq_false (Nat.not_le.mpr hlt), hlt⟩
  · exact Or.inr ⟨decide_eq_true hge, hge⟩

theorem toInt_le_of_msb (hw : 0 < w) {a b : BitVec w} (hsign : b.msb = true → a.msb = true)
    (hle : a.msb = b.msb → a.toNat ≤ b.toNat) : a.toInt ≤ b.toInt := by
  have ha := toInt_sign_cases a
  have hb := toInt_sign_cases b
  have hpow := two_pow_eq hw
  rcases msb_cases a with ⟨hamsb, hanat⟩ | ⟨hamsb, hanat⟩ <;>
    rcases msb_cases b with ⟨hbmsb, hbnat⟩ | ⟨hbmsb, hbnat⟩
  · have h := hle (hamsb.trans hbmsb.symm)
    omega
  · have h := hsign hbmsb
    rw [hamsb] at h
    cases h
  · omega
  · have h := hle (hamsb.trans hbmsb.symm)
    omega

theorem toInt_bounds (hw : 0 < w) (a : BitVec w) :
    -(2 ^ (w - 1) : Int) ≤ a.toInt ∧ a.toInt < 2 ^ (w - 1) := by
  have hcases := toInt_sign_cases a
  have hpow := two_pow_eq hw
  have hcast := cast_two_pow (w - 1)
  omega

theorem toInt_intMin (hw : 0 < w) : (BitVec.intMin w).toInt = -(2 ^ (w - 1) : Int) :=
  BitVec.toInt_intMin_of_pos hw

theorem toInt_intMax (hw : 0 < w) : (BitVec.intMax w).toInt = (2 ^ (w - 1) : Int) - 1 := by
  have hcases := toInt_sign_cases (BitVec.intMax w)
  have hpow := two_pow_eq hw
  have hpos := Nat.two_pow_pos (w - 1)
  have hcast := cast_two_pow (w - 1)
  rw [toNat_intMax] at hcases
  omega

theorem toInt_add_cases (hw : 0 < w) (a b : BitVec w) :
    (a + b).toInt = a.toInt + b.toInt ∨ (a + b).toInt = a.toInt + b.toInt - 2 * 2 ^ (w - 1) ∨
      (a + b).toInt = a.toInt + b.toInt + 2 * 2 ^ (w - 1) := by
  have ha := toInt_sign_cases a
  have hb := toInt_sign_cases b
  have hs := toInt_sign_cases (a + b)
  have hsum := toNat_add_cases a b
  have hpow := two_pow_eq hw
  have hcast := cast_two_pow (w - 1)
  omega

theorem toInt_sub_cases (hw : 0 < w) (a b : BitVec w) :
    (a - b).toInt = a.toInt - b.toInt ∨ (a - b).toInt = a.toInt - b.toInt - 2 * 2 ^ (w - 1) ∨
      (a - b).toInt = a.toInt - b.toInt + 2 * 2 ^ (w - 1) := by
  have ha := toInt_sign_cases a
  have hb := toInt_sign_cases b
  have hs := toInt_sign_cases (a - b)
  have hsum := toNat_sub_cases a b
  have hpow := two_pow_eq hw
  have hcast := cast_two_pow (w - 1)
  omega

theorem toInt_add_one_cases (hw : 0 < w) (a : BitVec w) :
    (a.toInt = 2 ^ (w - 1) - 1 ∧ (a + 1).toInt = -(2 ^ (w - 1))) ∨
      (a.toInt < 2 ^ (w - 1) - 1 ∧ (a + 1).toInt = a.toInt + 1) := by
  have ha := toInt_sign_cases a
  have hs := toInt_sign_cases (a + 1)
  have hsucc := toNat_add_one_cases hw a
  have hpow := two_pow_eq hw
  have hcast := cast_two_pow (w - 1)
  omega

theorem toInt_sub_one_cases (hw : 0 < w) (a : BitVec w) :
    (a.toInt = -(2 ^ (w - 1)) ∧ (a - 1).toInt = 2 ^ (w - 1) - 1) ∨
      (-(2 ^ (w - 1)) < a.toInt ∧ (a - 1).toInt = a.toInt - 1) := by
  have ha := toInt_sign_cases a
  have hs := toInt_sign_cases (a - 1)
  have hpred := toNat_sub_one_cases hw a
  have hpow := two_pow_eq hw
  have hcast := cast_two_pow (w - 1)
  omega

theorem toInt_eq_of_modEq (hw : 0 < w) {a : BitVec w} {n : Int}
    (hmod : ∃ k, (a.toNat : Int) = n + k * 2 ^ w) (hlo : -(2 ^ (w - 1)) ≤ n)
    (hhi : n < 2 ^ (w - 1)) : a.toInt = n := by
  obtain ⟨k, hk⟩ := hmod
  have hofInt : a = BitVec.ofInt w n := by
    apply BitVec.eq_of_toNat_eq
    have hcast := cast_two_pow w
    rw [BitVec.toNat_ofInt, hcast]
    have hmod : n % 2 ^ w = a.toNat := by
      rw [← Int.add_mul_emod_self_right n k, ← hk]
      apply Int.emod_eq_of_lt (Int.natCast_nonneg _)
      rw [← hcast]
      exact_mod_cast a.isLt
    rw [hmod, Int.toNat_natCast]
  rw [hofInt, BitVec.toInt_ofInt_eq_self hw hlo hhi]

end SmlnjLlvm.Words
