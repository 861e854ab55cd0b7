import SmlnjLlvm.Library.Loop
import SmlnjLlvm.Library.Words
import Mathlib.Algebra.Ring.Parity
import Mathlib.Data.Nat.Prime.Basic

/-!
# Magic numbers for signed division by a constant

The search works with the absolute value of the divisor. The multiplier is
negated for a negative divisor; where it does not fit in a signed word, the
code that divides adds or subtracts the dividend.
-/

namespace SmlnjLlvm.Support

open DoWhile MagicDivision Words

variable {w : Nat}

structure SignedDivisionByConstantInfo (w : Nat) where
  Magic : BitVec w
  ShiftAmount : Nat
  deriving DecidableEq, Repr

namespace SignedDivisionByConstantInfo

/-- The variables of the search loop. -/
structure Search (w : Nat) where
  P : Nat
  Q1 : BitVec w
  R1 : BitVec w
  Q2 : BitVec w
  R2 : BitVec w

def Search.init (AD ANC : BitVec w) : Search w where
  P := w - 1
  Q1 := BitVec.intMin w / ANC
  R1 := BitVec.intMin w % ANC
  Q2 := BitVec.intMin w / AD
  R2 := BitVec.intMin w % AD

/-- One update of a quotient and its remainder. -/
def update (B Q R : BitVec w) : BitVec w × BitVec w :=
  let Q := Q <<< 1
  let R := R <<< 1
  if B ≤ R then (Q + 1, R - B) else (Q, R)

def Search.turn (AD ANC : BitVec w) (s : Search w) : Search w where
  P := s.P + 1
  Q1 := (update ANC s.Q1 s.R1).1
  R1 := (update ANC s.Q1 s.R1).2
  Q2 := (update AD s.Q2 s.R2).1
  R2 := (update AD s.Q2 s.R2).2

def Search.goesOn (AD : BitVec w) (s : Search w) : Bool :=
  decide (s.Q1 < AD - s.R2) || (decide (s.Q1 = AD - s.R2) && decide (s.R1 = 0))

/-- The absolute value of the critical dividend. -/
def criticalDividend (D : BitVec w) : BitVec w :=
  let T := BitVec.intMin w + D >>> (w - 1)
  T - 1 - T % D.abs

/-- A failed assertion has no result. `fuel` bounds the turns of the loop. -/
def get (fuel : Nat) (D : BitVec w) : Option (SignedDivisionByConstantInfo w) := do
  guard (D ≠ 0)
  guard (3 ≤ w)
  let AD := D.abs
  let ANC := criticalDividend D
  let s ← doWhile (Search.turn AD ANC) (Search.goesOn AD) fuel (Search.init AD ANC)
  let Magic := if D.msb then -(s.Q2 + 1) else s.Q2 + 1
  some ⟨Magic, s.P - w⟩

/-- The code that replaces a division. -/
def quotient (info : SignedDivisionByConstantInfo w) (D n : BitVec w) : BitVec w :=
  let q := BitVec.ofInt w (n.toInt * info.Magic.toInt / 2 ^ w)
  let q := if 0 < D.toInt ∧ info.Magic.toInt < 0 then q + n
    else if D.toInt < 0 ∧ 0 < info.Magic.toInt then q - n
    else q
  let q := q.sshiftRight info.ShiftAmount
  q + q >>> (w - 1)

/-! ## The loop keeps quotients and remainders -/

structure Search.Tracks (AD ANC : BitVec w) (s : Search w) : Prop where
  nc : DivMod ANC (2 ^ s.P) s.Q1 s.R1
  d : DivMod AD (2 ^ s.P) s.Q2 s.R2

theorem update_divMod {B Q R : BitVec w} {a : Nat} (hw : 0 < w) (hB : 0 < B.toNat)
    (hle : B.toNat ≤ 2 ^ (w - 1)) (h : DivMod B a Q R) :
    DivMod B (2 * a) (update B Q R).1 (update B Q R).2 := by
  have hr := h.rem_lt hB
  have hpow := two_pow_eq hw
  have hdouble : (R <<< 1).toNat = 2 * R.toNat := by
    rw [toNat_shiftLeft_one]
    exact Nat.mod_eq_of_lt (by omega)
  have htest : B ≤ R <<< 1 ↔ B.toNat ≤ 2 * R.toNat + 0 := by
    rw [BitVec.le_def, hdouble]
    exact Iff.rfl
  unfold update
  by_cases hcase : B ≤ R <<< 1
  · have hle := htest.mp hcase
    rw [if_pos hcase]
    refine h.double hB (Nat.zero_le 1) ?_ ?_
    · rw [if_pos hle, toNat_shiftLeft_one_add_one hw]
    · rw [if_pos hle, toNat_sub_of_le (BitVec.le_def.mp hcase), hdouble]
      rfl
  · have hle := mt htest.mpr hcase
    rw [if_neg hcase]
    refine h.double hB (Nat.zero_le 1) ?_ ?_
    · rw [if_neg hle, toNat_shiftLeft_one]
      rfl
    · rw [if_neg hle, hdouble]
      rfl

/-- Divisor and critical dividend as numbers; `t` is one more than the largest dividend. -/
structure Critical (AD ANC : BitVec w) (t : Nat) : Prop where
  one_lt : 1 < AD.toNat
  le : AD.toNat ≤ 2 ^ (w - 1)
  le_t : AD.toNat ≤ t
  t_eq : t = 2 ^ (w - 1) ∧ AD.toNat < 2 ^ (w - 1) ∨ t = 2 ^ (w - 1) + 1
  nc : ANC.toNat = critical AD.toNat t

namespace Critical

variable {AD ANC : BitVec w} {t : Nat}

theorem pos (h : Critical AD ANC t) : 0 < AD.toNat := Nat.lt_of_succ_lt h.one_lt

theorem nc_lt (h : Critical AD ANC t) : ANC.toNat < t := by
  rw [h.nc]
  exact critical_lt h.pos h.le_t

theorem nc_le (h : Critical AD ANC t) : ANC.toNat ≤ 2 ^ (w - 1) := by
  have hlt := h.nc_lt
  rcases h.t_eq with ht | ht
  · omega
  · omega

theorem two_le (h : Critical AD ANC t) (hw : 3 ≤ w) : 2 ≤ ANC.toNat := by
  have hpred := pred_le_critical h.pos h.le_t
  have hle := le_critical_add h.pos h.le_t
  have hpow : 2 ^ 2 ≤ 2 ^ (w - 1) := Nat.pow_le_pow_right (by decide) (by omega)
  rw [h.nc]
  rcases h.t_eq with ht | ht
  · omega
  · omega

theorem pow_lt_of_min (h : Critical AD ANC t) (hw : 3 ≤ w) (hAD : AD.toNat = 2 ^ (w - 1)) {P : Nat}
    (hle : 2 ^ P ≤ ANC.toNat * 2 ^ (w - 1)) : 2 ^ P < ANC.toNat * 2 ^ (w - 1) := by
  have htwo := h.two_le hw
  have hone := critical_add_one h.pos h.le_t
  have hlt := h.nc_lt
  have hnext : ANC.toNat + 1 = 2 ^ (w - 1) := by
    rcases h.t_eq with ht | ht
    · omega
    · have hdiv : t / AD.toNat = 1 := by
        rw [ht, hAD]
        exact Nat.div_eq_of_lt_le (by omega) (by omega)
      rw [h.nc, hone, hdiv, hAD, Nat.mul_one]
  have hodd : Odd ANC.toNat := by
    have heven : Even (ANC.toNat + 1) := by
      rw [hnext]
      exact Nat.even_pow.mpr ⟨even_two, by omega⟩
    exact Nat.not_even_iff_odd.mp (Nat.even_add_one.mp heven)
  refine Nat.lt_of_le_of_ne hle ?_
  intro heq
  have hdvd : ANC.toNat ∣ 2 ^ P := heq ▸ Nat.dvd_mul_right _ _
  have hcop : Nat.Coprime ANC.toNat (2 ^ P) :=
    Nat.Coprime.pow_right P (Nat.coprime_two_right.mpr hodd)
  have hself := Nat.Coprime.eq_one_of_dvd hcop hdvd
  omega

end Critical

theorem Search.Tracks.turn {AD ANC : BitVec w} {t : Nat} {s : Search w} (hw : 3 ≤ w)
    (hc : Critical AD ANC t) (h : s.Tracks AD ANC) : (s.turn AD ANC).Tracks AD ANC := by
  have hpow : 2 ^ (s.P + 1) = 2 * 2 ^ s.P := pow_succ' 2 s.P
  have hNC := Nat.lt_of_lt_of_le Nat.two_pos (hc.two_le hw)
  refine ⟨?_, ?_⟩
  · change DivMod ANC (2 ^ (s.P + 1)) _ _
    rw [hpow]
    exact update_divMod (by omega) hNC hc.nc_le h.nc
  · change DivMod AD (2 ^ (s.P + 1)) _ _
    rw [hpow]
    exact update_divMod (by omega) hc.pos hc.le h.d

theorem Search.Tracks.init (hw : 0 < w) (AD ANC : BitVec w) :
    (Search.init AD ANC).Tracks AD ANC := by
  have hmin : (BitVec.intMin w).toNat = 2 ^ (w - 1) := BitVec.toNat_intMin_of_pos hw
  have hfit : ∀ b : Nat, 2 ^ (w - 1) / b % 2 ^ w = 2 ^ (w - 1) / b := fun b =>
    Nat.mod_eq_of_lt (Nat.div_lt_of_lt (by omega))
  refine ⟨⟨?_, ?_⟩, ⟨?_, ?_⟩⟩
  · rw [Search.init, BitVec.toNat_udiv, hmin]
    exact (hfit _).symm
  · rw [Search.init, BitVec.toNat_umod, hmin]
  · rw [Search.init, BitVec.toNat_udiv, hmin]
    exact (hfit _).symm
  · rw [Search.init, BitVec.toNat_umod, hmin]

/-! ## The search ends with a good multiplier -/

/-- The error of the multiplier `p / d + 1`. -/
def error (d p : Nat) : Nat := d - p % d

theorem error_pos {d : Nat} (hd : 0 < d) (p : Nat) : 0 < error d p :=
  Nat.sub_pos_of_lt (Nat.mod_lt p hd)

theorem error_le (d p : Nat) : error d p ≤ d := Nat.sub_le _ _

theorem multiplier_mul {d : Nat} (hd : 0 < d) (p : Nat) : (p / d + 1) * d = p + error d p := by
  have hdiv := Nat.div_add_mod p d
  have hr := Nat.mod_lt p hd
  rw [Nat.succ_mul, Nat.mul_comm]
  unfold error
  omega

theorem delta_toNat {AD ANC : BitVec w} {s : Search w} (hAD : 0 < AD.toNat)
    (h : s.Tracks AD ANC) : (AD - s.R2).toNat = error AD.toNat (2 ^ s.P) := by
  rw [toNat_sub_of_le (Nat.le_of_lt (h.d.rem_lt hAD)), h.d.rem]
  rfl

theorem goesOn_iff {AD ANC : BitVec w} {s : Search w} (hAD : 0 < AD.toNat) (hNC : 0 < ANC.toNat)
    (h : s.Tracks AD ANC) (hexact : 2 ^ s.P / ANC.toNat < 2 ^ w) :
    s.goesOn AD = true ↔ 2 ^ s.P ≤ ANC.toNat * error AD.toNat (2 ^ s.P) := by
  unfold Search.goesOn
  rw [Bool.or_eq_true, Bool.and_eq_true, decide_eq_true_iff, decide_eq_true_iff,
    decide_eq_true_iff, BitVec.lt_def, ← BitVec.toNat_inj, ← BitVec.toNat_inj,
    delta_toNat hAD h, h.nc.quot, h.nc.rem, Nat.mod_eq_of_lt hexact]
  exact test_iff hNC

/-- The power at which the search is, and why it went on there. -/
structure Search.Pre (AD ANC : BitVec w) (s : Search w) : Prop where
  tracks : s.Tracks AD ANC
  more : s.P = w - 1 ∨ w ≤ s.P ∧ 2 ^ s.P ≤ ANC.toNat * error AD.toNat (2 ^ s.P)

/-- The end of a turn. -/
structure Search.Post (AD ANC : BitVec w) (s : Search w) : Prop where
  tracks : s.Tracks AD ANC
  ge : w ≤ s.P
  exact : 2 ^ s.P / ANC.toNat < 2 ^ w
  last : s.P = w ∨ w ≤ s.P - 1 ∧
    2 ^ (s.P - 1) ≤ ANC.toNat * error AD.toNat (2 ^ (s.P - 1))

theorem Search.Pre.lt {AD ANC : BitVec w} {t : Nat} {s : Search w} (hw : 3 ≤ w)
    (hc : Critical AD ANC t) (h : s.Pre AD ANC) : s.P < 2 * w - 1 := by
  rcases h.more with hP | hP
  · omega
  · have hle : 2 ^ s.P ≤ 2 ^ (w - 1 + (w - 1)) := by
      refine Nat.le_trans hP.2 ?_
      rw [Nat.pow_add]
      exact Nat.mul_le_mul hc.nc_le (Nat.le_trans (error_le _ _) hc.le)
    have hP' := (Nat.pow_le_pow_iff_right (by decide : 1 < 2)).mp hle
    omega

theorem pow_le_of_more {AD ANC : BitVec w} {t P : Nat} (hw : 3 ≤ w) (hc : Critical AD ANC t)
    (hmore : 2 ^ P ≤ ANC.toNat * error AD.toNat (2 ^ P)) :
    2 ^ P ≤ (2 ^ (w - 1) - 1) * AD.toNat ∨ 2 ^ P ≤ 2 ^ (w - 1) * (AD.toNat - 1) := by
  by_cases hdvd : AD.toNat ∣ 2 ^ P
  · -- the divisor is a power of two, which does not divide `2 ^ (w - 1) + 1`
    left
    refine Nat.le_trans hmore (Nat.mul_le_mul ?_ (error_le _ _))
    have hlt := hc.nc_lt
    rcases hc.t_eq with ht | ht
    · omega
    · by_contra hge
      have hnc : ANC.toNat = 2 ^ (w - 1) := by omega
      have hnext := critical_add_one hc.pos hc.le_t
      rw [← hc.nc, hnc] at hnext
      have hodd : Nat.Coprime (2 ^ (w - 1) + 1) (2 ^ P) := by
        have heven : Even (2 ^ (w - 1)) := Nat.even_pow.mpr ⟨even_two, by omega⟩
        exact Nat.Coprime.pow_right P (Nat.coprime_two_right.mpr heven.add_one)
      have hone := Nat.eq_one_of_dvd_coprimes hodd ⟨_, hnext⟩ hdvd
      have hone_lt := hc.one_lt
      omega
  · right
    refine Nat.le_trans hmore (Nat.mul_le_mul hc.nc_le ?_)
    unfold error
    omega

theorem Search.Pre.turn {AD ANC : BitVec w} {t : Nat} {s : Search w} (hw : 3 ≤ w)
    (hc : Critical AD ANC t) (h : s.Pre AD ANC) : (s.turn AD ANC).Post AD ANC := by
  have hNC := Nat.lt_of_lt_of_le Nat.two_pos (hc.two_le hw)
  have hpow : 2 ^ (s.P + 1) = 2 * 2 ^ s.P := pow_succ' 2 s.P
  have hword := two_pow_eq (by omega : 0 < w)
  refine ⟨h.tracks.turn hw hc, ?_, ?_, ?_⟩
  · change w ≤ s.P + 1
    rcases h.more with hP | hP
    · omega
    · omega
  · change 2 ^ (s.P + 1) / ANC.toNat < 2 ^ w
    rw [hpow, Nat.div_lt_iff_lt_mul hNC]
    rcases h.more with hP | hP
    · rw [hP, ← hword]
      have hmul := Nat.mul_le_mul_left (2 ^ w) (hc.two_le hw)
      omega
    · -- the error is below half a word, or the divisor is the minimum value
      by_cases hsmall : error AD.toNat (2 ^ s.P) < 2 ^ (w - 1)
      · have hle : ANC.toNat * (error AD.toNat (2 ^ s.P) + 1) ≤ ANC.toNat * 2 ^ (w - 1) :=
          Nat.mul_le_mul_left _ hsmall
        have hcomm : 2 ^ w * ANC.toNat = 2 * (ANC.toNat * 2 ^ (w - 1)) := by
          rw [hword]
          ring
        rw [Nat.mul_succ] at hle
        omega
      · have herr := error_le AD.toNat (2 ^ s.P)
        have hle := hc.le
        have hAD : AD.toNat = 2 ^ (w - 1) := by omega
        have hlt := hc.pow_lt_of_min hw hAD
          (Nat.le_trans hP.2 (Nat.mul_le_mul_left _ (by omega)))
        have hcomm : 2 ^ w * ANC.toNat = 2 * (ANC.toNat * 2 ^ (w - 1)) := by
          rw [hword]
          ring
        omega
  · change s.P + 1 = w ∨ w ≤ s.P + 1 - 1 ∧ _
    rw [Nat.add_sub_cancel]
    rcases h.more with hP | hP
    · exact Or.inl (by omega)
    · exact Or.inr hP

theorem Search.Post.multiplier_lt {AD ANC : BitVec w} {t : Nat} {s : Search w} (hw : 3 ≤ w)
    (hc : Critical AD ANC t) (h : s.Post AD ANC) : 2 ^ s.P / AD.toNat + 1 < 2 ^ w := by
  have hmul := multiplier_mul hc.pos (2 ^ s.P)
  have herr := error_le AD.toNat (2 ^ s.P)
  have hword := two_pow_eq (by omega : 0 < w)
  have hone := hc.one_lt
  rcases h.last with hP | hP
  · have hhalf : 2 ^ s.P / AD.toNat ≤ 2 ^ w / 2 := by
      rw [hP]
      exact Nat.div_le_div_left hone Nat.two_pos
    have hpow : 2 ^ 2 ≤ 2 ^ (w - 1) := Nat.pow_le_pow_right (by decide) (by omega)
    omega
  · have hge := h.ge
    have hpow : 2 ^ s.P = 2 * 2 ^ (s.P - 1) := two_pow_eq (by omega)
    refine Nat.lt_of_mul_lt_mul_right (a := AD.toNat) ?_
    rw [hmul]
    rcases pow_le_of_more hw hc hP.2 with hbound | hbound
    · rw [Nat.sub_mul, Nat.one_mul] at hbound
      have hdouble : 2 ^ w * AD.toNat = 2 * (2 ^ (w - 1) * AD.toNat) := by
        rw [hword, Nat.mul_assoc]
      have hself : 1 * AD.toNat ≤ 2 ^ (w - 1) * AD.toNat :=
        Nat.mul_le_mul_right _ (Nat.two_pow_pos _)
      omega
    · rw [Nat.mul_sub, Nat.mul_one] at hbound
      have hdouble : 2 ^ w * AD.toNat = 2 * (2 ^ (w - 1) * AD.toNat) := by
        rw [hword, Nat.mul_assoc]
      have hself : 2 ^ (w - 1) * 1 ≤ 2 ^ (w - 1) * AD.toNat :=
        Nat.mul_le_mul_left _ hc.pos
      omega

structure Search.Found (AD : BitVec w) (t : Nat) (s : Search w) : Prop where
  ge : w ≤ s.P
  lt : 2 ^ s.P / AD.toNat + 1 < 2 ^ w
  magic : (s.Q2 + 1).toNat = 2 ^ s.P / AD.toNat + 1
  below : ∀ n < t, n * (2 ^ s.P / AD.toNat + 1) < (n / AD.toNat + 1) * 2 ^ s.P
  min : t = 2 ^ (w - 1) →
    t * (2 ^ s.P / AD.toNat + 1) ≤ (t / AD.toNat + 1) * 2 ^ s.P

theorem mul_le_succ {d P : Nat} (hw : 0 < w) (hP : w ≤ P) (hd : 0 < d)
    (hmod : 2 ^ (w - 1) % d = d - 1) :
    2 ^ (w - 1) * (2 ^ P / d + 1) ≤ (2 ^ (w - 1) / d + 1) * 2 ^ P := by
  have hmul := multiplier_mul hd (2 ^ P)
  have hdiv := Nat.div_add_mod (2 ^ (w - 1)) d
  have hsplit : 2 ^ P = 2 ^ (w - 1) * 2 ^ (P - (w - 1)) := by
    rw [← Nat.pow_add, Nat.add_sub_cancel' (by omega)]
  have hnext : d * (2 ^ (w - 1) / d + 1) = 2 ^ (w - 1) + 1 := by
    rw [Nat.mul_succ]
    omega
  -- the error is `2 ^ (P - (w - 1))`, or that exceeds the divisor
  have herr : error d (2 ^ P) ≤ 2 ^ (P - (w - 1)) := by
    by_contra hgt
    have hle := error_le d (2 ^ P)
    have hpos := Nat.two_pow_pos (P - (w - 1))
    have hdvd₁ : d ∣ 2 ^ P + 2 ^ (P - (w - 1)) := by
      refine ⟨(2 ^ (w - 1) / d + 1) * 2 ^ (P - (w - 1)), ?_⟩
      rw [← Nat.mul_assoc, hnext, Nat.succ_mul, ← hsplit]
    have hdvd₂ : d ∣ 2 ^ P + error d (2 ^ P) := ⟨2 ^ P / d + 1, by rw [← hmul, Nat.mul_comm]⟩
    have hdvd := Nat.dvd_sub hdvd₂ hdvd₁
    have hle' := Nat.le_of_dvd (by omega) hdvd
    omega
  refine Nat.le_of_mul_le_mul_left ?_ hd
  calc d * (2 ^ (w - 1) * (2 ^ P / d + 1)) = 2 ^ (w - 1) * ((2 ^ P / d + 1) * d) := by ring
    _ = 2 ^ (w - 1) * 2 ^ P + 2 ^ (w - 1) * error d (2 ^ P) := by rw [hmul, Nat.mul_add]
    _ ≤ 2 ^ (w - 1) * 2 ^ P + 2 ^ (w - 1) * 2 ^ (P - (w - 1)) :=
        Nat.add_le_add_left (Nat.mul_le_mul_left _ herr) _
    _ = (2 ^ (w - 1) + 1) * 2 ^ P := by rw [← hsplit, Nat.succ_mul]
    _ = d * ((2 ^ (w - 1) / d + 1) * 2 ^ P) := by rw [← hnext, Nat.mul_assoc]

theorem Search.Post.found {AD ANC : BitVec w} {t : Nat} {s : Search w} (hw : 3 ≤ w)
    (hc : Critical AD ANC t) (h : s.Post AD ANC) (hstops : s.goesOn AD = false) :
    s.Found AD t := by
  have hNC := Nat.lt_of_lt_of_le Nat.two_pos (hc.two_le hw)
  have hmul := multiplier_mul hc.pos (2 ^ s.P)
  have hlt := h.multiplier_lt hw hc
  have henough : ANC.toNat * error AD.toNat (2 ^ s.P) < 2 ^ s.P := by
    rw [← Nat.not_le, ← goesOn_iff hc.pos hNC h.tracks h.exact, hstops]
    exact Bool.false_ne_true
  have hmod : ANC.toNat % AD.toNat = AD.toNat - 1 := by
    rw [hc.nc]
    exact critical_mod hc.pos hc.le_t
  have hbelow : ∀ n < ANC.toNat + AD.toNat,
      n * (2 ^ s.P / AD.toNat + 1) < (n / AD.toNat + 1) * 2 ^ s.P := fun n hn =>
    mul_lt_succ hc.pos hmul (error_lt hc.pos hmod henough hn)
  have hadd := le_critical_add hc.pos hc.le_t
  rw [← hc.nc] at hadd
  refine ⟨h.ge, hlt, ?_, fun n hn => hbelow n (Nat.lt_of_lt_of_le hn hadd), ?_⟩
  · rw [toNat_add_one (by omega), h.tracks.d.quot, Nat.mod_add_mod]
    exact Nat.mod_eq_of_lt hlt
  · intro ht
    by_cases hlast : t < ANC.toNat + AD.toNat
    · exact Nat.le_of_lt (hbelow t hlast)
    · have hmod' : t % AD.toNat = AD.toNat - 1 := by
        have hnc := hc.nc
        unfold critical at hnc
        omega
      rw [ht] at hmod' ⊢
      exact mul_le_succ (by omega) h.ge hc.pos hmod'

theorem search_found {AD ANC : BitVec w} {t : Nat} (hw : 3 ≤ w) (hc : Critical AD ANC t) :
    ∃ s : Search w, (∀ fuel, w < fuel →
      doWhile (Search.turn AD ANC) (Search.goesOn AD) fuel (Search.init AD ANC) = some s) ∧
      s.Found AD t := by
  have hinit : (Search.init AD ANC).Pre AD ANC :=
    ⟨Search.Tracks.init (by omega) AD ANC, Or.inl rfl⟩
  have hNC := Nat.lt_of_lt_of_le Nat.two_pos (hc.two_le hw)
  have hturn : ∀ s : Search w, s.Pre AD ANC → (s.turn AD ANC).Post AD ANC := fun s hs => hs.turn hw hc
  have hcont : ∀ s : Search w, s.Pre AD ANC → (s.turn AD ANC).goesOn AD = true →
      (s.turn AD ANC).Pre AD ANC ∧ 2 * w - 1 - (s.turn AD ANC).P < 2 * w - 1 - s.P := by
    intro s hs hgoes
    have hpost := hturn s hs
    have hmore := (goesOn_iff hc.pos hNC hpost.tracks hpost.exact).mp hgoes
    refine ⟨⟨hpost.tracks, Or.inr ⟨hpost.ge, hmore⟩⟩, ?_⟩
    have hlt := hs.lt hw hc
    change 2 * w - 1 - (s.P + 1) < 2 * w - 1 - s.P
    omega
  obtain ⟨s, hrun, hpost, hstops⟩ :=
    doWhile_rule (fun s : Search w => 2 * w - 1 - s.P) hturn hcont hinit
  refine ⟨s, fun fuel hfuel => hrun fuel ?_, hpost.found hw hc hstops⟩
  change 2 * w - 1 - (w - 1) < fuel
  omega

theorem abs_toNat (D : BitVec w) : D.abs.toNat = D.toInt.natAbs := by
  rw [BitVec.toNat_abs, BitVec.toInt_eq_msb_cond]
  cases D.msb
  · simp
  · rw [if_pos rfl, if_pos rfl]
    omega

theorem toNat_signBit (hw : 0 < w) (x : BitVec w) :
    (x >>> (w - 1)).toNat = if x.msb then 1 else 0 := by
  have hpow := two_pow_eq hw
  rw [toNat_shr, BitVec.msb_eq_decide]
  by_cases h : 2 ^ (w - 1) ≤ x.toNat
  · rw [if_pos (decide_eq_true h)]
    exact Nat.div_eq_of_lt_le (by omega) (by omega)
  · rw [if_neg (by rw [decide_eq_true_iff]; exact h)]
    exact Nat.div_eq_of_lt (by omega)

/-- One more than the largest absolute value of a dividend with the sign of a quotient. -/
def bound (D : BitVec w) : Nat := 2 ^ (w - 1) + if D.msb then 1 else 0

theorem criticalDividend_spec {D : BitVec w} (hw : 3 ≤ w) (hD : 1 < D.toInt.natAbs) :
    Critical D.abs (criticalDividend D) (bound D) := by
  have hpow := two_pow_eq (by omega : 0 < w)
  have hone : (1 : BitVec w).toNat = 1 := toNat_one (by omega)
  have habs := abs_toNat D
  have hlo := BitVec.le_toInt D
  have hhi := BitVec.toInt_lt (x := D)
  have hcast : ((2 ^ (w - 1) : Nat) : Int) = 2 ^ (w - 1) := by push_cast; rfl
  have hmsb : D.msb = true ↔ D.toInt < 0 := by rw [BitVec.msb_eq_toInt, decide_eq_true_iff]
  have hle : D.abs.toNat ≤ 2 ^ (w - 1) := by omega
  have hbound : D.abs.toNat ≤ bound D := Nat.le_trans hle (Nat.le_add_right _ _)
  have hT : (BitVec.intMin w + D >>> (w - 1)).toNat = bound D := by
    have hsign := toNat_signBit (by omega) D
    have hmin : (BitVec.intMin w).toNat = 2 ^ (w - 1) := BitVec.toNat_intMin_of_pos (by omega)
    rw [toNat_add_of_lt, hmin, hsign]
    · rfl
    · rw [hmin, hsign]
      split
      · omega
      · omega
  have hmod := Nat.mod_lt (bound D) (by omega : 0 < D.abs.toNat)
  refine ⟨by omega, hle, hbound, ?_, ?_⟩
  · unfold bound
    cases hD : D.msb with
    | true => exact Or.inr rfl
    | false =>
      refine Or.inl ⟨rfl, ?_⟩
      have hpos : ¬ D.toInt < 0 := by rw [← hmsb, hD]; exact Bool.false_ne_true
      omega
  · have hpred : (BitVec.intMin w + D >>> (w - 1) - 1).toNat = bound D - 1 := by
      rw [toNat_sub_of_le (by rw [hT, hone]; omega), hT, hone]
    unfold criticalDividend
    have hrem : ((BitVec.intMin w + D >>> (w - 1)) % D.abs).toNat = bound D % D.abs.toNat := by
      rw [BitVec.toNat_umod, hT]
    rw [toNat_sub_of_le (by rw [hpred, hrem]; omega), hpred, hrem]
    rfl

/-! ## The quotient -/

theorem ofInt_high_add (n : BitVec w) (M : Int) :
    BitVec.ofInt w (n.toInt * M / 2 ^ w) + n = BitVec.ofInt w (n.toInt * (M + 2 ^ w) / 2 ^ w) := by
  have hpos : (2 : Int) ^ w ≠ 0 := Int.pow_ne_zero (by decide)
  rw [Int.mul_add, Int.add_mul_ediv_right _ _ hpos, BitVec.ofInt_add, BitVec.ofInt_toInt]

theorem ofInt_high_sub (n : BitVec w) (M : Int) :
    BitVec.ofInt w (n.toInt * M / 2 ^ w) - n = BitVec.ofInt w (n.toInt * (M - 2 ^ w) / 2 ^ w) := by
  have hsum := ofInt_high_add n (M - 2 ^ w)
  rw [Int.sub_add_cancel] at hsum
  rw [← hsum, BitVec.add_sub_cancel]

theorem add_signBit_toInt (hw : 1 < w) (y : BitVec w) :
    (y + y >>> (w - 1)).toInt = if y.toInt < 0 then y.toInt + 1 else y.toInt := by
  have hlo := BitVec.le_toInt y
  have hbit : y >>> (w - 1) = BitVec.ofInt w (if y.toInt < 0 then 1 else 0) := by
    rw [← BitVec.toNat_inj, toNat_signBit (by omega), BitVec.msb_eq_toInt]
    by_cases h : y.toInt < 0
    · rw [if_pos (decide_eq_true h), if_pos h]
      exact (toNat_one (by omega)).symm
    · rw [if_neg (by rw [decide_eq_true_iff]; exact h), if_neg h]
      simp
  have hsum : y + y >>> (w - 1) =
      BitVec.ofInt w (y.toInt + if y.toInt < 0 then 1 else 0) := by
    rw [BitVec.ofInt_add, BitVec.ofInt_toInt, ← hbit]
  rw [hsum]
  by_cases h : y.toInt < 0
  · rw [if_pos h, if_pos h]
    exact BitVec.toInt_ofInt_eq_self (by omega) (by omega) (by omega)
  · rw [if_neg h, if_neg h, Int.add_zero, BitVec.ofInt_toInt]

/-- The multiplier of the search, with the sign of the divisor. -/
def Search.info (D : BitVec w) (s : Search w) : SignedDivisionByConstantInfo w :=
  ⟨if D.msb then -(s.Q2 + 1) else s.Q2 + 1, s.P - w⟩

theorem corrected_high {D : BitVec w} {s : Search w} {m : Nat} (hD : D.toInt ≠ 0)
    (hmagic : (s.Q2 + 1).toNat = m) (hpos : 0 < m) (n : BitVec w) :
    (if 0 < D.toInt ∧ (s.info D).Magic.toInt < 0 then
        BitVec.ofInt w (n.toInt * (s.info D).Magic.toInt / 2 ^ w) + n
      else if D.toInt < 0 ∧ 0 < (s.info D).Magic.toInt then
        BitVec.ofInt w (n.toInt * (s.info D).Magic.toInt / 2 ^ w) - n
      else BitVec.ofInt w (n.toInt * (s.info D).Magic.toInt / 2 ^ w)) =
      BitVec.ofInt w (n.toInt * (D.toInt.sign * m) / 2 ^ w) := by
  have hcast : ((2 ^ w : Nat) : Int) = 2 ^ w := by push_cast; rfl
  have hmsb : D.msb = true ↔ D.toInt < 0 := by rw [BitVec.msb_eq_toInt, decide_eq_true_iff]
  unfold Search.info
  rcases Int.lt_or_gt_of_ne hD with hneg | hpos'
  · have hM : (-(s.Q2 + 1)).toInt = if 2 * (2 ^ w - m) < 2 ^ w then (2 ^ w : Int) - m else -m := by
      rw [BitVec.toInt_eq_toNat_cond, BitVec.toNat_neg, hmagic, Nat.mod_eq_of_lt (by omega)]
      by_cases h : 2 * (2 ^ w - m) < 2 ^ w
      · rw [if_pos h, if_pos h]
        omega
      · rw [if_neg h, if_neg h]
        omega
    rw [Int.sign_eq_neg_one_of_neg hneg, hmsb.mpr hneg, if_pos rfl, hM]
    by_cases h : 2 * (2 ^ w - m) < 2 ^ w
    · rw [if_pos h, if_neg (by omega), if_pos ⟨hneg, by omega⟩, ofInt_high_sub]
      congr 3
      omega
    · rw [if_neg h, if_neg (by omega), if_neg (by omega)]
      congr 3
      omega
  · have hM : (s.Q2 + 1).toInt = if 2 * m < 2 ^ w then (m : Int) else m - 2 ^ w := by
      rw [BitVec.toInt_eq_toNat_cond, hmagic, hcast]
    have hfalse : D.msb = false := by
      rw [Bool.eq_false_iff, ne_eq, hmsb]
      omega
    rw [Int.sign_eq_one_of_pos hpos', hfalse, if_neg Bool.false_ne_true, hM]
    by_cases h : 2 * m < 2 ^ w
    · rw [if_pos h, if_neg (by omega), if_neg (by omega)]
      congr 3
      omega
    · rw [if_neg h, if_pos ⟨hpos', by omega⟩, ofInt_high_add]
      congr 3
      omega

theorem Search.Found.quotient_info {D : BitVec w} {s : Search w} (hw : 3 ≤ w)
    (hD : 1 < D.toInt.natAbs) (h : s.Found D.abs (bound D)) (n : BitVec w) :
    ((s.info D).quotient D n).toInt = n.toInt.tdiv D.toInt := by
  have habs := abs_toNat D
  have hne : D.toInt ≠ 0 := by omega
  have hP := h.ge
  have hm := h.lt
  have hmagic := h.magic
  have hbelow := h.below
  have hmin := h.min
  have hmul := multiplier_mul (d := D.abs.toNat) (by omega) (2 ^ s.P)
  have hnlo := BitVec.le_toInt n
  have hnhi := BitVec.toInt_lt (x := n)
  have hcast : ((2 ^ (w - 1) : Nat) : Int) = 2 ^ (w - 1) := by push_cast; rfl
  have hword : ((2 ^ w : Nat) : Int) = 2 ^ w := by push_cast; rfl
  have hmsb : D.msb = true ↔ D.toInt < 0 := by rw [BitVec.msb_eq_toInt, decide_eq_true_iff]
  have herr := error_pos (d := D.abs.toNat) (by omega) (2 ^ s.P)
  generalize herr' : error D.abs.toNat (2 ^ s.P) = e at hmul herr
  generalize hmm : 2 ^ s.P / D.abs.toNat + 1 = m at hm hmagic hbelow hmin hmul
  have hmpos : 0 < m := hmm ▸ Nat.succ_pos _
  rw [habs] at hbelow hmin hmul
  -- the corrected high half fits in a word
  have hsign : (n.toInt * (D.toInt.sign * m)).natAbs = n.toInt.natAbs * m := by
    rw [Int.natAbs_mul, Int.natAbs_mul, Int.natAbs_sign_of_ne_zero hne, Nat.one_mul,
      Int.natAbs_natCast]
  have hprod : n.toInt.natAbs * m ≤ 2 ^ (w - 1) * (2 ^ w - 1) :=
    Nat.mul_le_mul (by omega) (by omega)
  have hsub : 2 ^ (w - 1) * (2 ^ w - 1) + 2 ^ (w - 1) = 2 ^ (w - 1) * 2 ^ w := by
    rw [← Nat.mul_succ, Nat.succ_eq_add_one, Nat.sub_add_cancel (Nat.two_pow_pos w)]
  have hprodInt : ((2 ^ (w - 1) * 2 ^ w : Nat) : Int) = 2 ^ (w - 1) * 2 ^ w := by push_cast; rfl
  have hlow : -2 ^ (w - 1) ≤ n.toInt * (D.toInt.sign * m) / 2 ^ w := by
    refine Int.le_ediv_of_mul_le (Int.pow_pos (by decide)) ?_
    rw [Int.neg_mul]
    omega
  have hhigh : n.toInt * (D.toInt.sign * m) / 2 ^ w < 2 ^ (w - 1) := by
    refine Int.ediv_lt_of_lt_mul (Int.pow_pos (by decide)) ?_
    omega
  have hhalf : (BitVec.ofInt w (n.toInt * (D.toInt.sign * m) / 2 ^ w)).toInt =
      n.toInt * (D.toInt.sign * m) / 2 ^ w :=
    BitVec.toInt_ofInt_eq_self (by omega) hlow hhigh
  have hshift : ((BitVec.ofInt w (n.toInt * (D.toInt.sign * m) / 2 ^ w)).sshiftRight
      (s.P - w)).toInt = n.toInt * (D.toInt.sign * m) / (2 ^ s.P : Nat) := by
    rw [BitVec.toInt_sshiftRight, hhalf, Int.shiftRight_eq_div_pow, ← hword,
      Int.ediv_ediv_of_nonneg (Int.natCast_nonneg _), ← Int.natCast_mul, ← Nat.pow_add,
      Nat.add_sub_cancel' hP]
  have hcorrected := corrected_high hne hmagic hmpos n
  unfold quotient
  dsimp only
  rw [hcorrected]
  change ((BitVec.ofInt w _).sshiftRight (s.P - w) +
    (BitVec.ofInt w _).sshiftRight (s.P - w) >>> (w - 1)).toInt = _
  rw [add_signBit_toInt (by omega), hshift]
  have hP' := Nat.two_pow_pos s.P
  refine floor_add_sign hP' herr hmul ?_ ?_
  · intro hnonneg
    apply hbelow
    unfold bound
    cases hs : D.msb with
    | true =>
      rw [if_pos rfl]
      omega
    | false =>
      have hpos : ¬ D.toInt < 0 := by
        rw [← hmsb, hs]
        exact Bool.false_ne_true
      rw [Int.sign_eq_one_of_pos (by omega), Int.mul_one] at hnonneg
      omega
  · intro hneg
    by_cases hlt : n.toInt.natAbs < bound D
    · exact Nat.le_of_lt (hbelow _ hlt)
    · have hbound : bound D = 2 ^ (w - 1) := by
        unfold bound at hlt ⊢
        cases hs : D.msb with
        | true =>
          rw [hs, if_pos rfl] at hlt
          omega
        | false => rfl
      have heq : n.toInt.natAbs = bound D := by omega
      rw [heq]
      exact hmin hbound

/-- Division by the information truncates toward zero, for every divisor and dividend. -/
theorem signed_get_correct (hw : 3 ≤ w) (D : BitVec w) (hzero : D ≠ 0) (hone : D ≠ 1) (hminus : D ≠ -1) :
    ∃ info, (∀ fuel, w < fuel → get fuel D = some info) ∧
      ∀ n : BitVec w, (info.quotient D n).toInt = n.toInt.tdiv D.toInt := by
  have hD : 1 < D.toInt.natAbs := by
    have hfour : (2 ^ 2 : Nat) ≤ 2 ^ (w - 1) := Nat.pow_le_pow_right (by decide) (by omega)
    have hcast : ((2 ^ (w - 1) : Nat) : Int) = 2 ^ (w - 1) := by push_cast; rfl
    have h0 : D.toInt ≠ 0 := fun h => hzero (BitVec.toInt_inj.mp (h.trans BitVec.toInt_zero.symm))
    have h1 : D.toInt ≠ 1 := by
      intro h
      apply hone
      rw [← BitVec.ofInt_toInt (x := D), h]
      rfl
    have h2 : D.toInt ≠ -1 := by
      intro h
      apply hminus
      rw [← BitVec.ofInt_toInt (x := D), h, BitVec.ofInt_neg]
      rfl
    omega
  obtain ⟨s, hrun, hfound⟩ := search_found hw (criticalDividend_spec hw hD)
  refine ⟨s.info D, ?_, fun n => hfound.quotient_info hw hD n⟩
  intro fuel hfuel
  unfold get
  rw [guard, if_pos hzero, guard, if_pos hw]
  simp only [pure_bind, hrun fuel hfuel]
  rfl

/-- The minimum value is a divisor like any other. -/
theorem signed_get_correct_intMin : ∃ info, get 33 (BitVec.intMin 32) = some info ∧
    (info.quotient (BitVec.intMin 32) (BitVec.intMin 32)).toInt = 1 := by
  obtain ⟨info, hrun, hquot⟩ :=
    signed_get_correct (w := 32) (by decide) (BitVec.intMin 32) (by decide) (by decide) (by decide)
  exact ⟨info, hrun 33 (by decide), (hquot _).trans (by decide)⟩

end SignedDivisionByConstantInfo

end SmlnjLlvm.Support
