import SmlnjLlvm.Library.Loop
import SmlnjLlvm.Library.Words

/-!
# Magic numbers for unsigned division by a constant

The search doubles a power of two and keeps its quotients and remainders by the
divisor and by the critical dividend in machine words. It stops when the
multiplier is good for every dividend; the multiplier may then need one bit
more than a word.
-/

namespace SmlnjLlvm.Support

open DoWhile MagicDivision Words

variable {w : Nat}

structure UnsignedDivisionByConstantInfo (w : Nat) where
  Magic : BitVec w
  IsAdd : Bool
  PostShift : Nat
  PreShift : Nat
  deriving DecidableEq, Repr

namespace UnsignedDivisionByConstantInfo

/-- The variables of the search loop. -/
structure Search (w : Nat) where
  P : Nat
  Q1 : BitVec w
  R1 : BitVec w
  Q2 : BitVec w
  R2 : BitVec w
  IsAdd : Bool

def Search.init (D NC : BitVec w) : Search w where
  P := w - 1
  Q1 := BitVec.intMin w / NC
  R1 := BitVec.intMin w % NC
  Q2 := BitVec.intMax w / D
  R2 := BitVec.intMax w % D
  IsAdd := false

def Search.updateNC (NC : BitVec w) (s : Search w) : Search w :=
  if NC - s.R1 ≤ s.R1 then
    { s with Q1 := s.Q1 <<< 1 + 1, R1 := s.R1 <<< 1 - NC }
  else { s with Q1 := s.Q1 <<< 1, R1 := s.R1 <<< 1 }

def Search.updateD (D : BitVec w) (s : Search w) : Search w :=
  if D - s.R2 ≤ s.R2 + 1 then
    { s with
      IsAdd := s.IsAdd || decide (BitVec.intMax w ≤ s.Q2)
      Q2 := s.Q2 <<< 1 + 1
      R2 := s.R2 <<< 1 + 1 - D }
  else
    { s with
      IsAdd := s.IsAdd || decide (BitVec.intMin w ≤ s.Q2)
      Q2 := s.Q2 <<< 1
      R2 := s.R2 <<< 1 + 1 }

def Search.turn (D NC : BitVec w) (s : Search w) : Search w :=
  Search.updateD D (Search.updateNC NC { s with P := s.P + 1 })

def Search.delta (D : BitVec w) (s : Search w) : BitVec w := D - 1 - s.R2

/-- The test of the loop; twice the width is computed in 32 bits. -/
def Search.goesOn (D : BitVec w) (s : Search w) : Bool :=
  decide (s.P < w * 2 % 2 ^ 32) &&
    (decide (s.Q1 < s.delta D) || (decide (s.Q1 = s.delta D) && decide (s.R1 = 0)))

/-- The largest dividend that leaves the remainder `D - 1`. -/
def criticalDividend (D : BitVec w) (LeadingZeros : Nat) : BitVec w :=
  let AllOnes := BitVec.allOnes w >>> LeadingZeros
  AllOnes - (AllOnes + 1 - D) % D

/--
A failed assertion has no result. `fuel` bounds the turns of the loop and the
depth of the recursion.
-/
def get : Nat → BitVec w → Nat → Bool → Option (UnsignedDivisionByConstantInfo w)
  | 0, _, _, _ => none
  | fuel + 1, D, LeadingZeros, AllowEvenDivisorOptimization => do
      guard (D ≠ 0 ∧ D ≠ 1)
      guard (1 < w)
      let NC := criticalDividend D LeadingZeros
      guard (NC % D = D - 1)
      let s ← doWhile (Search.turn D NC) (Search.goesOn D) fuel (Search.init D NC)
      if s.IsAdd && !D.getLsbD 0 && AllowEvenDivisorOptimization then do
        let PreShift := D.ctz.toNat
        let info ← get fuel (D >>> PreShift) (LeadingZeros + PreShift) true
        guard (info.IsAdd = false ∧ info.PreShift = 0)
        some { info with PreShift := PreShift }
      else if s.IsAdd then do
        guard (0 < s.P - w)
        some ⟨s.Q2 + 1, true, s.P - w - 1, 0⟩
      else some ⟨s.Q2 + 1, false, s.P - w, 0⟩

/-- The code that replaces a division. -/
def quotient (info : UnsignedDivisionByConstantInfo w) (n : BitVec w) : BitVec w :=
  let q := BitVec.ofNat w ((n >>> info.PreShift).toNat * info.Magic.toNat / 2 ^ w)
  if info.IsAdd then (((n - q) >>> 1) + q) >>> info.PostShift else q >>> info.PostShift

/-! ## The loop keeps quotients and remainders -/

/-- What the variables of the search are, as numbers. -/
structure Search.Tracks (D NC : BitVec w) (s : Search w) : Prop where
  nc : DivMod NC (2 ^ s.P) s.Q1 s.R1
  d : DivMod D (2 ^ s.P - 1) s.Q2 s.R2
  isAdd : s.IsAdd = true ↔ 2 ^ w ≤ (2 ^ s.P - 1) / D.toNat + 1

theorem updateNC_divMod {NC : BitVec w} {a : Nat} {s : Search w} (hw : 0 < w)
    (hNC : 0 < NC.toNat) (h : DivMod NC a s.Q1 s.R1) :
    DivMod NC (2 * a) (s.updateNC NC).Q1 (s.updateNC NC).R1 := by
  have hr := h.rem_lt hNC
  have htest : NC - s.R1 ≤ s.R1 ↔ NC.toNat ≤ 2 * s.R1.toNat + 0 := by
    rw [BitVec.le_def, toNat_sub_of_le (Nat.le_of_lt hr)]
    omega
  unfold Search.updateNC
  by_cases hcase : NC - s.R1 ≤ s.R1
  · have hle := htest.mp hcase
    rw [if_pos hcase]
    refine h.double hNC (Nat.zero_le 1) ?_ ?_
    · rw [if_pos hle, toNat_shiftLeft_one_add_one hw]
    · rw [if_pos hle]
      exact toNat_sub_of_mod (toNat_shiftLeft_one _) hle (by omega)
  · have hle := mt htest.mpr hcase
    rw [if_neg hcase]
    refine h.double hNC (Nat.zero_le 1) ?_ ?_
    · rw [if_neg hle, toNat_shiftLeft_one, Nat.add_zero]
    · rw [if_neg hle, toNat_shiftLeft_one]
      exact Nat.mod_eq_of_lt (by omega)

theorem updateD_divMod {D : BitVec w} {a : Nat} {s : Search w} (hw : 0 < w)
    (hD : 0 < D.toNat) (h : DivMod D a s.Q2 s.R2) :
    DivMod D (2 * a + 1) (s.updateD D).Q2 (s.updateD D).R2 := by
  have hr := h.rem_lt hD
  have hone : (s.R2 + 1).toNat = s.R2.toNat + 1 := by
    rw [toNat_add_one hw]
    exact Nat.mod_eq_of_lt (by omega)
  have htest : D - s.R2 ≤ s.R2 + 1 ↔ D.toNat ≤ 2 * s.R2.toNat + 1 := by
    rw [BitVec.le_def, toNat_sub_of_le (Nat.le_of_lt hr), hone]
    omega
  unfold Search.updateD
  by_cases hcase : D - s.R2 ≤ s.R2 + 1
  · have hle := htest.mp hcase
    rw [if_pos hcase]
    refine h.double hD (Nat.le_refl 1) ?_ ?_
    · rw [if_pos hle, toNat_shiftLeft_one_add_one hw]
    · rw [if_pos hle]
      exact toNat_sub_of_mod (toNat_shiftLeft_one_add_one hw _) hle (by omega)
  · have hle := mt htest.mpr hcase
    rw [if_neg hcase]
    refine h.double hD (Nat.le_refl 1) ?_ ?_
    · rw [if_neg hle, toNat_shiftLeft_one, Nat.add_zero]
    · rw [if_neg hle, toNat_shiftLeft_one_add_one hw]
      exact Nat.mod_eq_of_lt (by omega)

theorem updateD_isAdd {D : BitVec w} {a : Nat} {s : Search w} (hw : 0 < w) (hD : 0 < D.toNat)
    (h : DivMod D a s.Q2 s.R2) (hadd : s.IsAdd = true ↔ 2 ^ w ≤ a / D.toNat + 1) :
    (s.updateD D).IsAdd = true ↔ 2 ^ w ≤ (2 * a + 1) / D.toNat + 1 := by
  have hr := h.rem_lt hD
  have hpow := two_pow_eq hw
  have hone : (s.R2 + 1).toNat = s.R2.toNat + 1 := by
    rw [toNat_add_one hw]
    exact Nat.mod_eq_of_lt (by omega)
  have htest : D - s.R2 ≤ s.R2 + 1 ↔ D.toNat ≤ 2 * (a % D.toNat) + 1 := by
    rw [BitVec.le_def, toNat_sub_of_le (Nat.le_of_lt hr), hone, ← h.rem]
    omega
  have hquot := (div_double a D.toNat hD (Nat.le_refl 1)).1
  have hexact : ¬ 2 ^ w ≤ a / D.toNat + 1 → s.Q2.toNat = a / D.toNat := by
    intro hsmall
    rw [h.quot]
    exact Nat.mod_eq_of_lt (by omega)
  have hmax : (BitVec.intMax w).toNat = 2 ^ (w - 1) - 1 := BitVec.toNat_intMax
  have hmin : (BitVec.intMin w).toNat = 2 ^ (w - 1) := BitVec.toNat_intMin_of_pos hw
  unfold Search.updateD
  by_cases hcase : D - s.R2 ≤ s.R2 + 1
  · rw [if_pos hcase]
    rw [if_pos (htest.mp hcase)] at hquot
    rw [Bool.or_eq_true, hadd, decide_eq_true_iff, BitVec.le_def, hmax, hquot]
    by_cases hbig : 2 ^ w ≤ a / D.toNat + 1
    · exact ⟨fun _ => by omega, fun _ => Or.inl hbig⟩
    · rw [hexact hbig]
      omega
  · rw [if_neg hcase]
    rw [if_neg (mt htest.mpr hcase)] at hquot
    rw [Bool.or_eq_true, hadd, decide_eq_true_iff, BitVec.le_def, hmin, hquot]
    by_cases hbig : 2 ^ w ≤ a / D.toNat + 1
    · exact ⟨fun _ => by omega, fun _ => Or.inl hbig⟩
    · rw [hexact hbig]
      omega

theorem updateD_P (D : BitVec w) (s : Search w) : (s.updateD D).P = s.P := by
  unfold Search.updateD
  split
  · rfl
  · rfl

theorem updateD_nc (D : BitVec w) (s : Search w) :
    (s.updateD D).Q1 = s.Q1 ∧ (s.updateD D).R1 = s.R1 := by
  unfold Search.updateD
  split
  · exact ⟨rfl, rfl⟩
  · exact ⟨rfl, rfl⟩

theorem updateNC_d (NC : BitVec w) (s : Search w) : (s.updateNC NC).P = s.P ∧
    (s.updateNC NC).Q2 = s.Q2 ∧ (s.updateNC NC).R2 = s.R2 ∧ (s.updateNC NC).IsAdd = s.IsAdd := by
  unfold Search.updateNC
  split
  · exact ⟨rfl, rfl, rfl, rfl⟩
  · exact ⟨rfl, rfl, rfl, rfl⟩

theorem turn_P (D NC : BitVec w) (s : Search w) : (s.turn D NC).P = s.P + 1 := by
  unfold Search.turn
  rw [updateD_P, (updateNC_d NC _).1]

theorem Search.Tracks.turn {D NC : BitVec w} {s : Search w} (hw : 0 < w) (hD : 0 < D.toNat)
    (hNC : 0 < NC.toNat) (h : s.Tracks D NC) : (s.turn D NC).Tracks D NC := by
  obtain ⟨_, hQ2, hR2, hIsAdd⟩ := updateNC_d NC { s with P := s.P + 1 }
  have hpow : 2 ^ (s.P + 1) = 2 * 2 ^ s.P := Nat.pow_succ'
  have hpred : 2 ^ (s.P + 1) - 1 = 2 * (2 ^ s.P - 1) + 1 := by
    have hpos := Nat.two_pow_pos s.P
    omega
  have hd : DivMod D (2 ^ s.P - 1) (Search.updateNC NC { s with P := s.P + 1 }).Q2
      (Search.updateNC NC { s with P := s.P + 1 }).R2 := by
    rw [hQ2, hR2]
    exact h.d
  have hadd : (Search.updateNC NC { s with P := s.P + 1 }).IsAdd = true ↔
      2 ^ w ≤ (2 ^ s.P - 1) / D.toNat + 1 := by
    rw [hIsAdd]
    exact h.isAdd
  refine ⟨?_, ?_, ?_⟩
  · rw [turn_P, hpow]
    unfold Search.turn
    rw [(updateD_nc D _).1, (updateD_nc D _).2]
    exact updateNC_divMod hw hNC h.nc
  · rw [turn_P, hpred]
    exact updateD_divMod hw hD hd
  · rw [turn_P, hpred]
    exact updateD_isAdd hw hD hd hadd

theorem Search.Tracks.init {D NC : BitVec w} (hw : 1 < w) (hD : 1 < D.toNat) :
    (Search.init D NC).Tracks D NC := by
  have hmin : (BitVec.intMin w).toNat = 2 ^ (w - 1) := BitVec.toNat_intMin_of_pos (by omega)
  have hmax : (BitVec.intMax w).toNat = 2 ^ (w - 1) - 1 := BitVec.toNat_intMax
  have hfit : ∀ a b : Nat, a < 2 ^ w → a / b % 2 ^ w = a / b := fun a b ha =>
    Nat.mod_eq_of_lt (Nat.div_lt_of_lt ha)
  refine ⟨⟨?_, ?_⟩, ⟨?_, ?_⟩, ?_⟩
  · rw [Search.init, BitVec.toNat_udiv, hmin]
    exact (hfit _ _ (by omega)).symm
  · rw [Search.init, BitVec.toNat_umod, hmin]
  · rw [Search.init, BitVec.toNat_udiv, hmax]
    exact (hfit _ _ (by omega)).symm
  · rw [Search.init, BitVec.toNat_umod, hmax]
  · have hle := Nat.div_le_self (2 ^ (w - 1) - 1) D.toNat
    refine ⟨fun h => absurd h Bool.false_ne_true, fun h => ?_⟩
    have h' : 2 ^ w ≤ (2 ^ (w - 1) - 1) / D.toNat + 1 := h
    omega

/-! ## The search ends with a good multiplier -/

/-- The error of the multiplier `(p - 1) / d + 1`. -/
def error (d p : Nat) : Nat := d - 1 - (p - 1) % d

theorem multiplier_mul {d p : Nat} (hd : 0 < d) (hp : 0 < p) :
    ((p - 1) / d + 1) * d = p + error d p := by
  have hdiv := Nat.div_add_mod (p - 1) d
  have hr := Nat.mod_lt (p - 1) hd
  rw [Nat.succ_mul, Nat.mul_comm]
  unfold error
  omega

/-- The critical dividend among those below `2 ^ N`. -/
structure Critical (D NC : BitVec w) (N : Nat) : Prop where
  le : N ≤ w
  one_lt : 1 < D.toNat
  lt : D.toNat < 2 ^ N
  nc : NC.toNat = critical D.toNat (2 ^ N)

namespace Critical

variable {D NC : BitVec w} {N : Nat}

theorem pos (h : Critical D NC N) : 0 < D.toNat := Nat.lt_of_succ_lt h.one_lt

theorem nc_lt (h : Critical D NC N) : NC.toNat < 2 ^ N := by
  rw [h.nc]
  exact critical_lt h.pos (Nat.le_of_lt h.lt)

theorem two_le (h : Critical D NC N) : 2 ≤ NC.toNat := by
  have hpred := pred_le_critical h.pos (Nat.le_of_lt h.lt)
  have hle := le_critical_add h.pos (Nat.le_of_lt h.lt)
  have hone := h.one_lt
  have hlt := h.lt
  have hN : 2 ≤ N := by
    by_contra hN
    have hpow : 2 ^ N ≤ 2 ^ 1 := Nat.pow_le_pow_right (by decide) (by omega)
    omega
  have hpow : 2 ^ 2 ≤ 2 ^ N := Nat.pow_le_pow_right (by decide) hN
  rw [h.nc]
  omega

end Critical

/-- The test without wrapping. -/
def Enough (D NC : BitVec w) (P : Nat) : Prop :=
  NC.toNat * error D.toNat (2 ^ P) < 2 ^ P

theorem delta_toNat {D NC : BitVec w} {s : Search w} (hw : 0 < w) (hD : 0 < D.toNat)
    (h : s.Tracks D NC) : (s.delta D).toNat = error D.toNat (2 ^ s.P) := by
  have hr := h.d.rem_lt hD
  have hone : (D - 1).toNat = D.toNat - 1 := by
    rw [toNat_sub_of_le (by rw [toNat_one hw]; exact hD), toNat_one hw]
  unfold Search.delta
  rw [toNat_sub_of_le (by omega), hone, h.d.rem]
  rfl

theorem not_enough_of_goesOn {D NC : BitVec w} {s : Search w} (hw : 0 < w) (hD : 0 < D.toNat)
    (hNC : 0 < NC.toNat) (h : s.Tracks D NC) (hexact : 2 ^ s.P / NC.toNat < 2 ^ w)
    (hgoes : s.goesOn D = true) :
    2 ^ s.P ≤ NC.toNat * error D.toNat (2 ^ s.P) := by
  unfold Search.goesOn at hgoes
  rw [Bool.and_eq_true, Bool.or_eq_true, Bool.and_eq_true, decide_eq_true_iff, decide_eq_true_iff,
    decide_eq_true_iff, decide_eq_true_iff, BitVec.lt_def, ← BitVec.toNat_inj, ← BitVec.toNat_inj,
    delta_toNat hw hD h, h.nc.quot, h.nc.rem, Nat.mod_eq_of_lt hexact] at hgoes
  exact (test_iff hNC).mp hgoes.2

theorem enough_of_stops {D NC : BitVec w} {s : Search w} (hw : 0 < w) (hD : 0 < D.toNat)
    (hNC : 0 < NC.toNat) (h : s.Tracks D NC) (hlt : s.P < w * 2 % 2 ^ 32)
    (hstops : s.goesOn D = false) : Enough D NC s.P := by
  refine lt_of_not_test hNC (q := s.Q1.toNat) ?_ ?_
  · rw [h.nc.quot]
    exact Nat.mod_le _ _
  · intro htest
    rw [← h.nc.rem, ← delta_toNat hw hD h] at htest
    apply Bool.false_ne_true
    rw [← hstops]
    unfold Search.goesOn
    rw [Bool.and_eq_true, Bool.or_eq_true, Bool.and_eq_true, decide_eq_true_iff, decide_eq_true_iff,
      decide_eq_true_iff, decide_eq_true_iff, BitVec.lt_def, ← BitVec.toNat_inj, ← BitVec.toNat_inj]
    exact ⟨hlt, htest⟩

/-- The start of a turn: a small divisor has not found its multiplier yet. -/
structure Search.Pre (D NC : BitVec w) (s : Search w) : Prop where
  tracks : s.Tracks D NC
  lt : s.P < 2 * w
  more : s.P = w - 1 ∨ w ≤ s.P ∧
    (D.toNat ≤ 2 ^ (w - 1) → 2 ^ s.P ≤ NC.toNat * error D.toNat (2 ^ s.P))

/-- The end of a turn. -/
structure Search.Post (D NC : BitVec w) (s : Search w) : Prop where
  tracks : s.Tracks D NC
  ge : w ≤ s.P
  le : s.P ≤ 2 * w
  exact : D.toNat ≤ 2 ^ (w - 1) → 2 ^ s.P / NC.toNat < 2 ^ w
  last : s.P = w ∨ w ≤ s.P - 1 ∧ (D.toNat ≤ 2 ^ (w - 1) →
    2 ^ (s.P - 1) ≤ NC.toNat * error D.toNat (2 ^ (s.P - 1)))

theorem error_lt_self {d : Nat} (hd : 0 < d) (p : Nat) : error d p < d := by
  unfold error
  omega

theorem Search.Pre.turn {D NC : BitVec w} {N : Nat} {s : Search w} (hw : 1 < w)
    (hc : Critical D NC N) (h : s.Pre D NC) : (s.turn D NC).Post D NC := by
  have hNC := Nat.lt_of_lt_of_le Nat.two_pos hc.two_le
  have hlt := h.lt
  have hpow : 2 ^ (s.P + 1) = 2 * 2 ^ s.P := Nat.pow_succ'
  refine ⟨h.tracks.turn (by omega) hc.pos hNC, ?_, ?_, ?_, ?_⟩
  · rw [turn_P]
    rcases h.more with hP | hP
    · omega
    · omega
  · rw [turn_P]
    omega
  · intro hsmall
    rw [turn_P, hpow, Nat.div_lt_iff_lt_mul hNC]
    have hword := two_pow_eq (by omega : 0 < w)
    rcases h.more with hP | hP
    · rw [hP, ← hword]
      calc 2 ^ w < 2 ^ w * 2 := by have hpos := Nat.two_pow_pos w; omega
        _ ≤ 2 ^ w * NC.toNat := Nat.mul_le_mul_left _ hc.two_le
    · have herr : error D.toNat (2 ^ s.P) + 1 ≤ 2 ^ (w - 1) :=
        Nat.le_trans (error_lt_self hc.pos _) hsmall
      calc 2 * 2 ^ s.P ≤ 2 * (NC.toNat * error D.toNat (2 ^ s.P)) :=
            Nat.mul_le_mul_left 2 (hP.2 hsmall)
        _ < 2 * (NC.toNat * error D.toNat (2 ^ s.P)) + 2 * NC.toNat := by omega
        _ = 2 * (NC.toNat * (error D.toNat (2 ^ s.P) + 1)) := by ring
        _ ≤ 2 * (NC.toNat * 2 ^ (w - 1)) :=
            Nat.mul_le_mul_left 2 (Nat.mul_le_mul_left _ herr)
        _ = 2 ^ w * NC.toNat := by rw [hword]; ring
  · rw [turn_P, Nat.add_sub_cancel]
    rcases h.more with hP | hP
    · exact Or.inl (by omega)
    · exact Or.inr hP

theorem Search.Post.pre {D NC : BitVec w} {N : Nat} {s : Search w} (hw : 1 < w) (hw31 : w < 2 ^ 31)
    (hc : Critical D NC N) (h : s.Post D NC) (hgoes : s.goesOn D = true) : s.Pre D NC := by
  have hNC := Nat.lt_of_lt_of_le Nat.two_pos hc.two_le
  have hlt : s.P < w * 2 % 2 ^ 32 := by
    unfold Search.goesOn at hgoes
    rw [Bool.and_eq_true, decide_eq_true_iff] at hgoes
    exact hgoes.1
  refine ⟨h.tracks, by omega, Or.inr ⟨h.ge, ?_⟩⟩
  intro hsmall
  exact not_enough_of_goesOn (by omega) hc.pos hNC h.tracks (h.exact hsmall) hgoes

theorem Search.Post.enough {D NC : BitVec w} {N : Nat} {s : Search w} (hw : 1 < w)
    (hw31 : w < 2 ^ 31) (hc : Critical D NC N) (h : s.Post D NC) (hstops : s.goesOn D = false) :
    Enough D NC s.P := by
  have hNC := Nat.lt_of_lt_of_le Nat.two_pos hc.two_le
  by_cases hlt : s.P < w * 2 % 2 ^ 32
  · exact enough_of_stops (by omega) hc.pos hNC h.tracks hlt hstops
  · have hle := h.le
    have hP : s.P = w + w := by omega
    have herr := error_lt_self hc.pos (2 ^ s.P)
    unfold Enough
    calc NC.toNat * error D.toNat (2 ^ s.P) ≤ NC.toNat * D.toNat :=
          Nat.mul_le_mul_left _ (Nat.le_of_lt herr)
      _ < 2 ^ w * 2 ^ w := Nat.mul_lt_mul'' NC.isLt D.isLt
      _ = 2 ^ s.P := by rw [hP, Nat.pow_add]

structure Search.Found (D : BitVec w) (N : Nat) (s : Search w) : Prop where
  ge : w ≤ s.P
  magic : (s.Q2 + 1).toNat = ((2 ^ s.P - 1) / D.toNat + 1) % 2 ^ w
  isAdd : s.IsAdd = true ↔ 2 ^ w ≤ (2 ^ s.P - 1) / D.toNat + 1
  good : ∀ n < 2 ^ N, n * ((2 ^ s.P - 1) / D.toNat + 1) / 2 ^ s.P = n / D.toNat
  lt : (2 ^ s.P - 1) / D.toNat + 1 < 2 ^ (w + 1)
  shift : s.IsAdd = true → w < s.P
  known : N < w → s.IsAdd = false
  notPow : s.IsAdd = true → ∀ k, D.toNat ≠ 2 ^ k

theorem multiplier_lt {D NC : BitVec w} {N P : Nat} (hc : Critical D NC N)
    (hmore : 2 ^ P ≤ NC.toNat * error D.toNat (2 ^ P)) :
    (2 ^ (P + 1) - 1) / D.toNat + 1 < 2 ^ (N + 1) := by
  have hmul := multiplier_mul hc.pos (Nat.two_pow_pos (P + 1))
  have herr := error_lt_self hc.pos (2 ^ (P + 1))
  have herr' := error_lt_self hc.pos (2 ^ P)
  have hnc := hc.nc_lt
  have hle : 2 ^ P ≤ (2 ^ N - 1) * (D.toNat - 1) := by
    refine Nat.le_trans hmore (Nat.mul_le_mul (by omega) (by omega))
  refine Nat.lt_of_mul_lt_mul_right (a := D.toNat) ?_
  obtain ⟨t, ht⟩ : ∃ t, 2 ^ N = t + 1 := ⟨2 ^ N - 1, by omega⟩
  obtain ⟨d, hd⟩ : ∃ d, D.toNat = d + 1 := ⟨D.toNat - 1, by omega⟩
  rw [ht, hd, Nat.add_sub_cancel, Nat.add_sub_cancel] at hle
  rw [hd] at herr
  rw [hmul, Nat.pow_succ 2 N, ht, hd]
  have hexp : (t + 1) * 2 * (d + 1) = 2 * (t * d) + 2 * t + 2 * d + 2 := by ring
  rw [hexp]
  omega

theorem multiplier_first_lt {d : Nat} (hw : 0 < w) (hd : 1 < d) : (2 ^ w - 1) / d + 1 < 2 ^ w := by
  have hle : (2 ^ w - 1) / d ≤ (2 ^ w - 1) / 2 := Nat.div_le_div_left hd Nat.two_pos
  have hpow := two_pow_eq hw
  by_cases hone : w = 1
  · subst hone
    omega
  · have htwo : 2 ^ 1 ≤ 2 ^ (w - 1) := Nat.pow_le_pow_right (by decide) (by omega)
    omega

theorem error_twoPow {k P : Nat} (h : k ≤ P) : error (2 ^ k) (2 ^ P) = 0 := by
  obtain ⟨j, rfl⟩ := Nat.exists_eq_add_of_le h
  have hk := Nat.two_pow_pos k
  obtain ⟨t, ht⟩ : ∃ t, 2 ^ j = t + 1 := ⟨2 ^ j - 1, by have hj := Nat.two_pow_pos j; omega⟩
  have hsplit : 2 ^ (k + j) - 1 = 2 ^ k - 1 + 2 ^ k * t := by
    rw [Nat.pow_add, ht, Nat.mul_succ]
    omega
  have hmod : (2 ^ (k + j) - 1) % 2 ^ k = 2 ^ k - 1 := by
    rw [hsplit, Nat.add_mul_mod_self_left, Nat.mod_eq_of_lt (by omega)]
  unfold error
  omega

theorem Search.Post.found {D NC : BitVec w} {N : Nat} {s : Search w} (hw : 1 < w)
    (hw31 : w < 2 ^ 31) (hc : Critical D NC N) (h : s.Post D NC) (hstops : s.goesOn D = false) :
    s.Found D N := by
  have henough := h.enough hw hw31 hc hstops
  have hmul := multiplier_mul hc.pos (Nat.two_pow_pos s.P)
  have hlt := hc.lt
  have hD := D.isLt
  have hword := two_pow_eq (by omega : 0 < w)
  have hlast : D.toNat ≤ 2 ^ (w - 1) → s.P = w ∨ w < s.P ∧
      2 ^ (s.P - 1) ≤ NC.toNat * error D.toNat (2 ^ (s.P - 1)) := by
    intro hsmall
    rcases h.last with hP | hP
    · exact Or.inl hP
    · exact Or.inr ⟨by omega, hP.2 hsmall⟩
  have hfirst : s.P = w → (2 ^ s.P - 1) / D.toNat + 1 < 2 ^ w := by
    intro hP
    rw [hP]
    exact multiplier_first_lt (by omega) hc.one_lt
  -- the multiplier for a small divisor fits in one bit more than the dividends
  have hsmallLt : D.toNat ≤ 2 ^ (w - 1) → (2 ^ s.P - 1) / D.toNat + 1 < 2 ^ w ∨
      (2 ^ s.P - 1) / D.toNat + 1 < 2 ^ (N + 1) := by
    intro hsmall
    rcases hlast hsmall with hP | hP
    · exact Or.inl (hfirst hP)
    · right
      have hbound := multiplier_lt hc hP.2
      rwa [Nat.sub_add_cancel (by omega)] at hbound
  have hadd := h.tracks.isAdd
  refine ⟨h.ge, ?_, hadd, ?_, ?_, ?_, ?_, ?_⟩
  · rw [toNat_add_one (by omega), h.tracks.d.quot, Nat.mod_add_mod]
  · intro n hn
    have hnc : n < NC.toNat + D.toNat := by
      rw [hc.nc]
      exact Nat.lt_of_lt_of_le hn (le_critical_add hc.pos (Nat.le_of_lt hlt))
    have hmod : NC.toNat % D.toNat = D.toNat - 1 := by
      rw [hc.nc]
      exact critical_mod hc.pos (Nat.le_of_lt hlt)
    exact mul_div_eq hc.pos hmul (error_lt hc.pos hmod henough hnc)
  · by_cases hsmall : D.toNat ≤ 2 ^ (w - 1)
    · have hpow : 2 ^ w ≤ 2 ^ (w + 1) := Nat.pow_le_pow_right (by decide) (Nat.le_succ w)
      have hpow' : 2 ^ (N + 1) ≤ 2 ^ (w + 1) :=
        Nat.pow_le_pow_right (by decide) (Nat.succ_le_succ hc.le)
      rcases hsmallLt hsmall with hb | hb
      · exact Nat.lt_of_lt_of_le hb hpow
      · exact Nat.lt_of_lt_of_le hb hpow'
    · have hP : 2 ^ s.P ≤ 2 ^ (2 * w) := Nat.pow_le_pow_right (by decide) h.le
      have herr := error_lt_self hc.pos (2 ^ s.P)
      have hsq : 2 ^ (2 * w) = 4 * (2 ^ (w - 1) * 2 ^ (w - 1)) := by
        rw [Nat.two_mul, Nat.pow_add, hword]
        ring
      refine Nat.lt_of_mul_lt_mul_right (a := D.toNat) ?_
      rw [hmul, Nat.pow_succ, hword]
      obtain ⟨d, hd⟩ : ∃ d, D.toNat = 2 ^ (w - 1) + 1 + d :=
        ⟨D.toNat - (2 ^ (w - 1) + 1), by omega⟩
      rw [hd] at herr ⊢
      have hexp : 2 * 2 ^ (w - 1) * 2 * (2 ^ (w - 1) + 1 + d) =
          4 * (2 ^ (w - 1) * 2 ^ (w - 1)) + 4 * 2 ^ (w - 1) + 4 * (2 ^ (w - 1) * d) := by ring
      have hpos : 1 * d ≤ 2 ^ (w - 1) * d := Nat.mul_le_mul_right d (Nat.two_pow_pos _)
      rw [hexp]
      omega
  · intro hIsAdd
    by_contra hP
    have hge := h.ge
    have hbig := hadd.mp hIsAdd
    exact Nat.not_lt.mpr hbig (hfirst (by omega))
  · intro hN
    rw [Bool.eq_false_iff, ne_eq, hadd, Nat.not_le]
    have hpowN : 2 ^ (N + 1) ≤ 2 ^ w := Nat.pow_le_pow_right (by decide) hN
    have hsmall : D.toNat ≤ 2 ^ (w - 1) := by
      omega
    rcases hsmallLt hsmall with hb | hb
    · exact hb
    · exact Nat.lt_of_lt_of_le hb hpowN
  · intro hIsAdd k hk
    have hkw : k < w := (Nat.pow_lt_pow_iff_right (by decide)).mp (hk ▸ hD)
    have hsmall : D.toNat ≤ 2 ^ (w - 1) := by
      rw [hk]
      exact Nat.pow_le_pow_right (by decide) (by omega)
    rcases hlast hsmall with hP | hP
    · exact Nat.not_lt.mpr (hadd.mp hIsAdd) (hfirst hP)
    · have hle := hP.2
      have hpos := Nat.two_pow_pos (s.P - 1)
      rw [hk, error_twoPow (by omega), Nat.mul_zero] at hle
      omega

theorem search_found {D NC : BitVec w} {N : Nat} (hw : 1 < w) (hw31 : w < 2 ^ 31)
    (hc : Critical D NC N) : ∃ s : Search w, (∀ fuel, w + 1 < fuel →
      doWhile (Search.turn D NC) (Search.goesOn D) fuel (Search.init D NC) = some s) ∧
      s.Found D N := by
  have hinit : (Search.init D NC).Pre D NC :=
    ⟨Search.Tracks.init hw hc.one_lt, by change w - 1 < 2 * w; omega, Or.inl rfl⟩
  have hcont : ∀ s : Search w, s.Pre D NC → (s.turn D NC).goesOn D = true →
      (s.turn D NC).Pre D NC ∧ 2 * w - (s.turn D NC).P < 2 * w - s.P := by
    intro s hs hgoes
    refine ⟨(hs.turn hw hc).pre hw hw31 hc hgoes, ?_⟩
    have hlt := hs.lt
    rw [turn_P]
    omega
  have hturn : ∀ s : Search w, s.Pre D NC → (s.turn D NC).Post D NC := fun s hs => hs.turn hw hc
  obtain ⟨s, hrun, hpost, hstops⟩ := doWhile_rule (fun s : Search w => 2 * w - s.P) hturn hcont hinit
  refine ⟨s, fun fuel hfuel => hrun fuel ?_, hpost.found hw hw31 hc hstops⟩
  change 2 * w - (w - 1) < fuel
  omega

theorem two_pow_pred_div {a b : Nat} (h : b ≤ a) : (2 ^ a - 1) / 2 ^ b = 2 ^ (a - b) - 1 := by
  have ha := Nat.two_pow_pos (a - b)
  have hb := Nat.two_pow_pos b
  have hsplit : 2 ^ a = 2 ^ b * (2 ^ (a - b) - 1) + 2 ^ b := by
    rw [← Nat.mul_succ, Nat.succ_eq_add_one, Nat.sub_add_cancel ha, ← Nat.pow_add,
      Nat.add_sub_cancel' h]
  exact ((Nat.div_mod_unique hb).mpr ⟨by omega, by omega⟩ :
    _ ∧ (2 ^ a - 1) % 2 ^ b = 2 ^ b - 1).1

theorem criticalDividend_spec {D : BitVec w} {LeadingZeros : Nat} (hD : 1 < D.toNat)
    (hle : LeadingZeros ≤ w) (hlt : D.toNat < 2 ^ (w - LeadingZeros)) :
    Critical D (criticalDividend D LeadingZeros) (w - LeadingZeros) := by
  have hw : 0 < w := by
    by_contra hzero
    have hone : 2 ^ w = 1 := by rw [Nat.eq_zero_of_not_pos hzero, Nat.pow_zero]
    omega
  have hones : (BitVec.allOnes w >>> LeadingZeros).toNat = 2 ^ (w - LeadingZeros) - 1 := by
    rw [BitVec.toNat_ushiftRight, BitVec.toNat_allOnes, Nat.shiftRight_eq_div_pow,
      two_pow_pred_div hle]
  have hnext : (BitVec.allOnes w >>> LeadingZeros + 1).toNat =
      2 ^ (w - LeadingZeros) % 2 ^ w := by
    rw [toNat_add_one hw, hones, Nat.sub_add_cancel (Nat.two_pow_pos _)]
  have hdiff : (BitVec.allOnes w >>> LeadingZeros + 1 - D).toNat =
      2 ^ (w - LeadingZeros) - D.toNat :=
    toNat_sub_of_mod hnext (Nat.le_of_lt hlt) (by omega)
  have hmod := Nat.mod_lt (2 ^ (w - LeadingZeros)) (by omega : 0 < D.toNat)
  refine ⟨Nat.sub_le _ _, hD, hlt, ?_⟩
  unfold criticalDividend
  have hrem : ((BitVec.allOnes w >>> LeadingZeros + 1 - D) % D).toNat =
      2 ^ (w - LeadingZeros) % D.toNat := by
    rw [BitVec.toNat_umod, hdiff, ← Nat.mod_eq_sub_mod (Nat.le_of_lt hlt)]
  rw [toNat_sub_of_le (by omega), hones, hrem]
  rfl

/-- The information that the search ends with. -/
def Search.info (s : Search w) : UnsignedDivisionByConstantInfo w :=
  if s.IsAdd then ⟨s.Q2 + 1, true, s.P - w - 1, 0⟩ else ⟨s.Q2 + 1, false, s.P - w, 0⟩

theorem toNat_mulHigh (n : BitVec w) (m : BitVec w) :
    (BitVec.ofNat w (n.toNat * m.toNat / 2 ^ w)).toNat = n.toNat * m.toNat / 2 ^ w := by
  rw [BitVec.toNat_ofNat]
  refine Nat.mod_eq_of_lt ((Nat.div_lt_iff_lt_mul (Nat.two_pow_pos w)).mpr ?_)
  exact Nat.mul_lt_mul'' n.isLt m.isLt

theorem Search.Found.quotient_info {D : BitVec w} {N : Nat} {s : Search w} (h : s.Found D N)
    (n : BitVec w) (hn : n.toNat < 2 ^ N) : s.info.quotient n = n / D := by
  have hgood := h.good n.toNat hn
  have hmagic := h.magic
  have hIsAdd := h.isAdd
  have hbound := h.lt
  have hP := h.ge
  generalize (2 ^ s.P - 1) / D.toNat + 1 = m at hgood hmagic hIsAdd hbound
  rw [← BitVec.toNat_inj, BitVec.toNat_udiv]
  unfold Search.info
  cases hadd : s.IsAdd with
  | false =>
    have hlt : m < 2 ^ w := by
      rw [← Nat.not_le, ← hIsAdd, hadd]
      exact Bool.false_ne_true
    rw [Nat.mod_eq_of_lt hlt] at hmagic
    simp only [quotient, Bool.false_eq_true, if_false, BitVec.toNat_ushiftRight n 0,
      Nat.shiftRight_zero]
    rw [BitVec.toNat_ushiftRight, toNat_mulHigh, hmagic, Nat.shiftRight_eq_div_pow,
      Nat.div_div_eq_div_mul, ← Nat.pow_add, Nat.add_sub_cancel' hP, hgood]
  | true =>
    have hge : 2 ^ w ≤ m := hIsAdd.mp hadd
    have hmod : m % 2 ^ w = m - 2 ^ w := by
      rw [Nat.mod_eq_sub_mod hge]
      exact Nat.mod_eq_of_lt (by omega)
    have hsplit : n.toNat * m = n.toNat * 2 ^ w + n.toNat * (m - 2 ^ w) := by
      rw [← Nat.mul_add, Nat.add_sub_cancel' hge]
    rw [hmod] at hmagic
    simp only [quotient, if_true, BitVec.toNat_ushiftRight n 0, Nat.shiftRight_zero]
    generalize hq : BitVec.ofNat w (n.toNat * (s.Q2 + 1).toNat / 2 ^ w) = q
    have hqNat : q.toNat = n.toNat * (m - 2 ^ w) / 2 ^ w := by
      rw [← hq, toNat_mulHigh, hmagic]
    have hqle : q.toNat ≤ n.toNat := by
      rw [hqNat]
      refine Nat.div_le_of_le_mul ?_
      rw [Nat.mul_comm (2 ^ w)]
      exact Nat.mul_le_mul_left _ (by omega)
    have hhalf : ((n - q) >>> 1).toNat = (n.toNat - q.toNat) / 2 := by
      rw [BitVec.toNat_ushiftRight, toNat_sub_of_le hqle, Nat.shiftRight_eq_div_pow, pow_one]
    have hsum : ((n - q) >>> 1 + q).toNat = (n.toNat + q.toNat) / 2 := by
      rw [toNat_add_of_lt (by rw [hhalf]; omega), hhalf]
      omega
    have hshift : 1 + (s.P - w - 1) = s.P - w := by
      have hPw := h.shift hadd
      omega
    have hadd' : n.toNat + q.toNat = n.toNat * m / 2 ^ w := by
      rw [hqNat, hsplit, Nat.add_comm (n.toNat * 2 ^ w), Nat.add_mul_div_right _ _
        (Nat.two_pow_pos w), Nat.add_comm]
    rw [BitVec.toNat_ushiftRight, hsum, Nat.shiftRight_eq_div_pow, Nat.div_div_eq_div_mul,
      ← pow_succ', Nat.add_comm _ 1, hshift, hadd', Nat.div_div_eq_div_mul, ← Nat.pow_add,
      Nat.add_sub_cancel' hP, hgood]

/-! ## Even divisors -/

theorem toNat_eq_ctz {D : BitVec w} :
    D.toNat = 2 ^ D.ctz.toNat * (D >>> D.ctz.toNat).toNat := by
  have hlow : D.toNat % 2 ^ D.ctz.toNat = 0 := by
    apply Nat.eq_of_testBit_eq
    intro i
    rw [Nat.testBit_mod_two_pow, Nat.zero_testBit]
    by_cases hi : i < D.ctz.toNat
    · have hbit := BitVec.getLsbD_false_of_lt_ctz hi
      rw [BitVec.getLsbD] at hbit
      rw [hbit, Bool.and_false]
    · rw [decide_eq_false hi, Bool.false_and]
  rw [toNat_shr]
  exact (Nat.mul_div_cancel' (Nat.dvd_of_mod_eq_zero hlow)).symm

theorem ctz_pos {D : BitVec w} (hD : D ≠ 0) (heven : D.getLsbD 0 = false) :
    0 < D.ctz.toNat := by
  by_contra hzero
  have hbit := BitVec.getLsbD_true_ctz_of_ne_zero hD
  rw [Nat.eq_zero_of_not_pos hzero, heven] at hbit
  exact Bool.false_ne_true hbit

theorem guard_bind {α : Type} {p : Prop} [Decidable p] (hp : p) (f : Unit → Option α) :
    (guard p >>= f) = f () := by
  rw [guard, if_pos hp]
  rfl

theorem get_succ {D : BitVec w} {LeadingZeros : Nat} {allow : Bool} {s : Search w} {fuel : Nat}
    (hw : 1 < w) (hD : 1 < D.toNat)
    (hc : Critical D (criticalDividend D LeadingZeros) (w - LeadingZeros))
    (hshift : s.IsAdd = true → w < s.P)
    (hrun : doWhile (Search.turn D (criticalDividend D LeadingZeros)) (Search.goesOn D) fuel
      (Search.init D (criticalDividend D LeadingZeros)) = some s) :
    get (fuel + 1) D LeadingZeros allow =
      if s.IsAdd && !D.getLsbD 0 && allow then do
        let info ← get fuel (D >>> D.ctz.toNat) (LeadingZeros + D.ctz.toNat) true
        guard (info.IsAdd = false ∧ info.PreShift = 0)
        some { info with PreShift := D.ctz.toNat }
      else some s.info := by
  have hzero : D ≠ 0 ∧ D ≠ 1 := by
    refine ⟨?_, ?_⟩
    · intro h
      rw [h, BitVec.ofNat_eq_ofNat, BitVec.toNat_ofNat, Nat.zero_mod] at hD
      omega
    · intro h
      rw [h, toNat_one (by omega)] at hD
      omega
  have hmod : criticalDividend D LeadingZeros % D = D - 1 := by
    rw [← BitVec.toNat_inj, BitVec.toNat_umod, hc.nc, critical_mod hc.pos (Nat.le_of_lt hc.lt),
      toNat_sub_of_le (by rw [toNat_one (by omega)]; exact hc.pos), toNat_one (by omega)]
  rw [get]
  simp only [guard_bind hzero, guard_bind hw, guard_bind hmod, hrun, Option.bind_eq_bind,
    Option.bind_some]
  by_cases hrec : (s.IsAdd && !D.getLsbD 0 && allow) = true
  · rw [if_pos hrec, if_pos hrec]
  · rw [if_neg hrec, if_neg hrec]
    unfold Search.info
    cases hadd : s.IsAdd with
    | false => rfl
    | true =>
      have hpos : 0 < s.P - w := Nat.sub_pos_of_lt (hshift hadd)
      rw [if_pos rfl, if_pos rfl]
      exact guard_bind hpos _

/--
Division by the information equals unsigned division, for every divisor and
all dividends that the leading zeros allow.
-/
theorem unsigned_get_correct (hw : 1 < w) (hw31 : w < 2 ^ 31) (D : BitVec w) (hD : 2 ≤ D.toNat)
    (LeadingZeros : Nat) (hLZ : LeadingZeros ≤ D.clz.toNat) (AllowEvenDivisorOptimization : Bool) :
    ∃ info, (∀ fuel, w + 4 ≤ fuel →
        get fuel D LeadingZeros AllowEvenDivisorOptimization = some info) ∧
      ∀ n : BitVec w, n.toNat < 2 ^ (w - LeadingZeros) → info.quotient n = n / D := by
  have hne : D ≠ 0 := by
    intro h
    rw [h, BitVec.ofNat_eq_ofNat, BitVec.toNat_ofNat, Nat.zero_mod] at hD
    omega
  have hclz : D.clz.toNat ≤ w := by
    have hlt := D.clz.isLt
    have hle : D.clz ≤ BitVec.ofNat w w := BitVec.clz_le
    rw [BitVec.le_def, BitVec.toNat_ofNat] at hle
    exact Nat.le_trans hle (Nat.mod_le _ _)
  have hlt : D.toNat < 2 ^ (w - LeadingZeros) :=
    Nat.lt_of_lt_of_le BitVec.toNat_lt_two_pow_sub_clz
      (Nat.pow_le_pow_right (by decide) (by omega))
  have hc := criticalDividend_spec hD (Nat.le_trans hLZ hclz) hlt
  obtain ⟨s, hrun, hfound⟩ := search_found hw hw31 hc
  by_cases hrec : (s.IsAdd && !D.getLsbD 0 && AllowEvenDivisorOptimization) = true
  · -- the divisor is even and not a power of two: its odd part is at least three
    have hparts := hrec
    rw [Bool.and_eq_true, Bool.and_eq_true, Bool.not_eq_true'] at hparts
    obtain ⟨⟨hadd, heven⟩, _⟩ := hparts
    have hsplit := toNat_eq_ctz (D := D)
    have hk := ctz_pos hne heven
    generalize hkk : D.ctz.toNat = k at *
    generalize hDD : D >>> k = D' at *
    have hpos := Nat.two_pow_pos k
    have hD' : 1 < D'.toNat := by
      by_contra hsmall
      rcases Nat.le_one_iff_eq_zero_or_eq_one.mp (Nat.not_lt.mp hsmall) with h | h
      · rw [h, Nat.mul_zero] at hsplit
        omega
      · rw [h, Nat.mul_one] at hsplit
        exact hfound.notPow hadd k hsplit
    have hkN : k < w - LeadingZeros := by
      refine (Nat.pow_lt_pow_iff_right (by decide : 1 < 2)).mp (Nat.lt_of_le_of_lt ?_ hlt)
      rw [hsplit]
      exact Nat.le_mul_of_pos_right _ (by omega)
    have hlt' : D'.toNat < 2 ^ (w - (LeadingZeros + k)) := by
      refine Nat.lt_of_mul_lt_mul_left (a := 2 ^ k) ?_
      rw [← hsplit, ← Nat.pow_add]
      rwa [show k + (w - (LeadingZeros + k)) = w - LeadingZeros by omega]
    have hc' := criticalDividend_spec hD' (by omega) hlt'
    obtain ⟨s', hrun', hfound'⟩ := search_found hw hw31 hc'
    have hadd' : s'.IsAdd = false := hfound'.known (by omega)
    have hinfo : s'.info.IsAdd = false ∧ s'.info.PreShift = 0 := by
      rw [Search.info, hadd']
      exact ⟨rfl, rfl⟩
    refine ⟨{ s'.info with PreShift := k }, ?_, ?_⟩
    · intro fuel hfuel
      obtain ⟨f, rfl⟩ : ∃ f, fuel = f + 2 := ⟨fuel - 2, by omega⟩
      rw [get_succ hw hD hc hfound.shift (hrun (f + 1) (by omega)), if_pos hrec, hkk, hDD,
        get_succ hw hD' hc' hfound'.shift (hrun' f (by omega)), hadd', Bool.false_and,
        Bool.false_and, if_neg Bool.false_ne_true]
      exact guard_bind hinfo _
    · intro n hn
      have hn' : (n >>> k).toNat < 2 ^ (w - (LeadingZeros + k)) := by
        rw [BitVec.toNat_ushiftRight, Nat.shiftRight_eq_div_pow, Nat.div_lt_iff_lt_mul hpos,
          ← Nat.pow_add]
        rwa [show w - (LeadingZeros + k) + k = w - LeadingZeros by omega]
      have hquot := hfound'.quotient_info (n >>> k) hn'
      have hpre : ({ s'.info with PreShift := k } : UnsignedDivisionByConstantInfo w).quotient n =
          s'.info.quotient (n >>> k) := by
        simp only [quotient, hinfo.1, hinfo.2, Bool.false_eq_true, if_false, BitVec.ushiftRight_zero]
      rw [hpre, hquot, ← BitVec.toNat_inj, BitVec.toNat_udiv, BitVec.toNat_udiv,
        BitVec.toNat_ushiftRight, Nat.shiftRight_eq_div_pow, Nat.div_div_eq_div_mul, ← hsplit]
  · refine ⟨s.info, ?_, fun n hn => hfound.quotient_info n hn⟩
    intro fuel hfuel
    obtain ⟨f, rfl⟩ : ∃ f, fuel = f + 1 := ⟨fuel - 1, by omega⟩
    rw [get_succ hw hD hc hfound.shift (hrun f (by omega)), if_neg hrec]

theorem unsigned_get_correct_fourteen : ∃ info, get 36 (14 : BitVec 32) 0 true = some info ∧
    info.quotient 100 = 7 := by
  obtain ⟨info, hrun, hquot⟩ := unsigned_get_correct (w := 32) (by decide) (by decide) 14 (by decide) 0
    (Nat.zero_le _) true
  refine ⟨info, hrun 36 (Nat.le_refl _), ?_⟩
  rw [hquot 100 (by decide)]
  decide

theorem goesOn_of_wraps {D : BitVec w} {s : Search w} (hwrap : w * 2 % 2 ^ 32 ≤ s.P) :
    s.goesOn D = false := by
  unfold Search.goesOn
  rw [decide_eq_false (Nat.not_lt.mpr hwrap), Bool.false_and]

theorem get_three_of_wraps (hw : 1 < w) (heven : 2 ∣ w) (hwrap : w * 2 % 2 ^ 32 ≤ w) :
    ∃ (D n : BitVec w) (info : UnsignedDivisionByConstantInfo w), 2 ≤ D.toNat ∧
      (∀ fuel, 2 ≤ fuel → get fuel D 0 true = some info) ∧ info.quotient n ≠ n / D := by
  obtain ⟨h, rfl⟩ := heven
  have hfour : 4 ≤ 2 ^ (2 * h) := Nat.pow_le_pow_right (by decide : 0 < 2) (by omega : 2 ≤ 2 * h)
  -- two to an even power is one more than a multiple of three
  obtain ⟨t, ht⟩ : ∃ t, 2 ^ (2 * h) = 3 * t + 1 := by
    refine ⟨2 ^ (2 * h) / 3, ?_⟩
    have hmod : 2 ^ (2 * h) % 3 = 1 := by
      rw [Nat.pow_mul, Nat.pow_mod]
      exact (Nat.pow_mod 1 h 3).symm ▸ by rw [Nat.one_pow]
    have hdiv := Nat.div_add_mod (2 ^ (2 * h)) 3
    omega
  have hD : (BitVec.ofNat (2 * h) 3).toNat = 3 := by
    rw [BitVec.toNat_ofNat]
    exact Nat.mod_eq_of_lt (by omega)
  have hn : (BitVec.ofNat (2 * h) (3 * t - 1)).toNat = 3 * t - 1 := by
    rw [BitVec.toNat_ofNat]
    exact Nat.mod_eq_of_lt (by omega)
  generalize BitVec.ofNat (2 * h) 3 = D at hD
  generalize BitVec.ofNat (2 * h) (3 * t - 1) = n at hn
  have hc := criticalDividend_spec (D := D) (by omega) (Nat.zero_le (2 * h))
    (by rw [Nat.sub_zero]; exact D.isLt)
  have hinit := @Search.Tracks.init (2 * h) D (criticalDividend D 0) hw (by omega)
  have hturn := hinit.turn (by omega) hc.pos (Nat.lt_of_lt_of_le Nat.two_pos hc.two_le)
  have hP : ((Search.init D (criticalDividend D 0)).turn D (criticalDividend D 0)).P = 2 * h := by
    rw [turn_P]
    change 2 * h - 1 + 1 = 2 * h
    omega
  generalize hs : (Search.init D (criticalDividend D 0)).turn D (criticalDividend D 0) = s at hturn hP
  have hmul : (2 ^ s.P - 1) / D.toNat + 1 = t + 1 := by
    rw [hP, ht, hD, Nat.add_sub_cancel, Nat.mul_div_cancel_left t (by decide)]
  have hadd : s.IsAdd = false := by
    rw [Bool.eq_false_iff, ne_eq, hturn.isAdd, hmul]
    omega
  have hmagic : (s.Q2 + 1).toNat = t + 1 := by
    rw [toNat_add_one (by omega), hturn.d.quot, Nat.mod_add_mod, hmul]
    exact Nat.mod_eq_of_lt (by omega)
  refine ⟨D, n, s.info, by omega, ?_, ?_⟩
  · intro fuel hfuel
    obtain ⟨f, rfl⟩ : ∃ f, fuel = f + 2 := ⟨fuel - 2, by omega⟩
    have hrun : doWhile (Search.turn D (criticalDividend D 0)) (Search.goesOn D) (f + 1)
        (Search.init D (criticalDividend D 0)) = some s := by
      rw [doWhile_succ, hs, goesOn_of_wraps (by rw [hP]; exact hwrap)]
      rfl
    rw [get_succ hw (by omega) hc (fun htrue => absurd (hadd.symm.trans htrue) Bool.false_ne_true)
      hrun, hadd, Bool.false_and, Bool.false_and, if_neg Bool.false_ne_true]
  · intro heq
    have hquot := congrArg BitVec.toNat heq
    have hhigh : (3 * t - 1) * (t + 1) / 2 ^ (2 * h) = t := by
      obtain ⟨k, rfl⟩ : ∃ k, t = k + 1 := ⟨t - 1, by omega⟩
      rw [ht]
      have hk : 3 * (k + 1) - 1 = 3 * k + 2 := by omega
      rw [hk]
      have huniq : (3 * k + 2) * (k + 1 + 1) / (3 * (k + 1) + 1) = k + 1 ∧
          (3 * k + 2) * (k + 1 + 1) % (3 * (k + 1) + 1) = k :=
        (Nat.div_mod_unique (by omega)).mpr ⟨by ring, by omega⟩
      exact huniq.1
    have hdiv : (3 * t - 1) / 3 = t - 1 := by omega
    rw [Search.info, hadd, if_neg Bool.false_ne_true] at hquot
    simp only [quotient, Bool.false_eq_true, if_false, BitVec.ushiftRight_zero] at hquot
    rw [BitVec.toNat_ushiftRight, toNat_mulHigh, hmagic, hn, hhigh, hP, Nat.sub_self,
      Nat.shiftRight_zero, BitVec.toNat_udiv, hn, hD, hdiv] at hquot
    omega

/-- At a width of 2^31 bits division by three goes wrong. -/
theorem get_three_wrong : ∃ (D n : BitVec (2 ^ 31)) (info : UnsignedDivisionByConstantInfo (2 ^ 31)),
    2 ≤ D.toNat ∧ (∀ fuel, 2 ≤ fuel → get fuel D 0 true = some info) ∧
      info.quotient n ≠ n / D :=
  get_three_of_wraps (by decide) (by decide) (by decide)

end UnsignedDivisionByConstantInfo

end SmlnjLlvm.Support
