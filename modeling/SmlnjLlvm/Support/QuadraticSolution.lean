import SmlnjLlvm.Library.QuadraticWraps
import SmlnjLlvm.Support.QuadraticWrap

/-!
# The solution of a quadratic equation with wraps

The width suffices for every intermediate value, so that the code computes with
integers: it shifts the parabola to the multiple that is met first, and rounds
the root of it towards zero.
-/

namespace SmlnjLlvm.APIntOps

open IntegerSqrt QuadraticWraps

variable {w : Nat}

/-- The integer square root or, for a number that is no square, the next integer. -/
def IsRounded (v r : Nat) : Prop :=
  r * r ≤ v ∧ v < (r + 1) * (r + 1) ∨ (r - 1) * (r - 1) < v ∧ v < r * r

instance (v r : Nat) : Decidable (IsRounded v r) := inferInstanceAs (Decidable (_ ∨ _))

/-- What the floating-point library does for the values that it is asked for. -/
def RoundsRoot (roundSqrt : Nat → Nat) : Prop := ∀ v < 2 ^ 51, IsRounded v (roundSqrt v)

theorem IsRounded.le {v r : Nat} (h : IsRounded v r) : r ≤ v := by
  rcases h with ⟨hle, -⟩ | ⟨hlt, -⟩
  · exact (Nat.le_mul_self r).trans hle
  · have hpred := Nat.le_mul_self (r - 1)
    omega

theorem results_rounded : ∀ v < 32, ∃ r ∈ sqrt.results[v]?,
    IsRounded v r ∧ (v ≤ 28 → r * r ≤ 25) := by
  decide

theorem sqrt_rounded {roundSqrt : Nat → Nat} (hround : RoundsRoot roundSqrt) (hw : 5 < w)
    (hmax : w < 2 ^ 32) {V : BitVec w} (hV : V.toNat < 2 ^ (w - 1)) :
    ∃ (r : BitVec w) (enough : Nat),
      (∀ turns, enough < turns → sqrt roundSqrt turns V = some r) ∧
      IsRounded V.toNat r.toNat ∧ (V.toNat ≤ 28 → r.toNat * r.toNat ≤ 25) := by
  have hrange := V.isLt
  by_cases htable : getActiveBits V ≤ 5
  · obtain ⟨r, hr, hrounded, hsmall⟩ :=
      results_rounded V.toNat ((getActiveBits_le_iff (by omega)).mp htable)
    have htoNat : (BitVec.ofNat w r).toNat = r :=
      Nat.mod_eq_of_lt (hrounded.le.trans_lt hrange)
    refine ⟨BitVec.ofNat w r, 0, ?_, htoNat.symm ▸ hrounded, htoNat.symm ▸ hsmall⟩
    intro turns _
    rw [sqrt, if_pos htable, Option.mem_def.mp hr, Option.map_some]
  have hlarge : 28 < V.toNat := by
    by_contra h
    exact htable ((getActiveBits_le_iff (by omega)).mpr (by omega))
  by_cases hfloat : getActiveBits V < 52
  · have hbound : V.toNat < 2 ^ 51 := by
      rcases Nat.lt_or_ge w 51 with hlt | hge
      · exact hrange.trans (Nat.pow_lt_pow_right (by decide) hlt)
      · exact (getActiveBits_le_iff hge).mp (by omega)
    have hrounded := hround V.toNat hbound
    have htoNat : (BitVec.ofNat w (roundSqrt V.toNat)).toNat = roundSqrt V.toNat :=
      Nat.mod_eq_of_lt (hrounded.le.trans_lt hrange)
    refine ⟨BitVec.ofNat w (roundSqrt V.toNat), 0, ?_, htoNat.symm ▸ hrounded,
      fun h => absurd h (Nat.not_le.mpr hlarge)⟩
    intro turns _
    rw [sqrt, if_neg htable, if_pos hfloat]
  · have hno : ¬ sqrt.Wraps V := fun h => absurd h.2 (Nat.not_lt.mpr hV.le)
    obtain ⟨x, enough, hs, hx, hrun⟩ :=
      sqrt.sqrt_eq_closest hmax roundSqrt (Nat.not_lt.mp hfloat) hno
    have hle := hs.le
    have hlt := hs.lt
    have hpow : 2 ^ w = 2 ^ (w - 1) * 2 := by
      rw [← Nat.pow_succ]
      congr 1
      omega
    have hfit : (x.toNat + 1) * (x.toNat + 1) < 2 ^ w := by nlinarith
    obtain ⟨r, hr, hval⟩ := sqrt.closest_eq hs hx hfit
    refine ⟨r, enough, fun turns hturns => by rw [hrun turns hturns, hr], ?_,
      fun h => absurd h (Nat.not_le.mpr hlarge)⟩
    rw [hval]
    split
    · exact Or.inl ⟨hle, hlt⟩
    · next hup =>
        refine Or.inr ⟨?_, hlt⟩
        rw [Nat.add_sub_cancel]
        nlinarith

/-! ## Values in the wider type -/

theorem toInt_add_of_fits {A B : BitVec w} (h : SignedFits w (A.toInt + B.toInt)) :
    (A + B).toInt = A.toInt + B.toInt := by
  apply BitVec.toInt_add_of_not_saddOverflow
  unfold SignedFits at h
  simp only [BitVec.saddOverflow, Bool.or_eq_true, decide_eq_true_iff]
  omega

theorem toInt_sub_of_fits {A B : BitVec w} (h : SignedFits w (A.toInt - B.toInt)) :
    (A - B).toInt = A.toInt - B.toInt := by
  apply BitVec.toInt_sub_of_not_ssubOverflow
  unfold SignedFits at h
  simp only [BitVec.ssubOverflow, Bool.or_eq_true, decide_eq_true_iff]
  omega

theorem toInt_neg_of_fits {A : BitVec w} (h : SignedFits w (-A.toInt)) :
    (-A).toInt = -A.toInt := by
  rw [← Int.zero_sub] at h
  have hsub : (0#w - A).toInt = (0#w).toInt - A.toInt :=
    toInt_sub_of_fits (by rwa [BitVec.toInt_zero])
  rwa [BitVec.zero_sub, BitVec.toInt_zero, Int.zero_sub] at hsub

theorem two_pow_width (hw : 0 < w) : (2 : Int) ^ w = 2 * 2 ^ (w - 1) := by
  rw [← pow_succ']
  congr 1
  omega

theorem toInt_ofNat_of_fits (hw : 0 < w) {k : Nat} (h : SignedFits w k) :
    (BitVec.ofNat w k).toInt = k := by
  have hpow : ((2 ^ w : Nat) : Int) = 2 * 2 ^ (w - 1) := by
    rw [← two_pow_width hw]
    exact_mod_cast rfl
  unfold SignedFits at h
  rw [BitVec.toInt_ofNat']
  exact Int.bmod_eq_of_le (by omega) (by omega)

theorem toNat_of_nonneg {A : BitVec w} (h : 0 ≤ A.toInt) : (A.toNat : Int) = A.toInt := by
  rw [BitVec.toInt_eq_toNat_of_msb]
  rw [BitVec.msb_eq_toInt, decide_eq_false_iff_not]
  exact not_lt.mpr h

theorem toInt_of_lt (hw : 0 < w) {A : BitVec w} (h : A.toNat < 2 ^ (w - 1)) :
    A.toInt = A.toNat := by
  have hfits : SignedFits w A.toNat := by
    constructor
    · have hpos := Words.int_two_pow_pos (w - 1)
      omega
    · exact_mod_cast h
  have heq := toInt_ofNat_of_fits hw hfits
  rwa [BitVec.ofNat_toNat, BitVec.setWidth_eq] at heq

theorem toInt_div_of_nonneg {A B : BitVec w} (hw : 0 < w) (hA : 0 ≤ A.toInt) (hB : 0 ≤ B.toInt) :
    (A / B).toInt = A.toInt / B.toInt := by
  have hlt := (toNat_of_nonneg hA).trans_lt (BitVec.toInt_lt (x := A))
  have hle := Nat.div_le_self A.toNat B.toNat
  have hfit : (A / B).toNat < 2 ^ (w - 1) := by
    rw [BitVec.toNat_udiv]
    exact hle.trans_lt (by exact_mod_cast hlt)
  rw [toInt_of_lt hw hfit, BitVec.toNat_udiv, Int.natCast_div, toNat_of_nonneg hA,
    toNat_of_nonneg hB]

theorem toInt_mod_of_nonneg {A B : BitVec w} (hw : 0 < w) (hA : 0 ≤ A.toInt) (hB : 0 ≤ B.toInt) :
    (A % B).toInt = A.toInt % B.toInt := by
  have hlt := (toNat_of_nonneg hA).trans_lt (BitVec.toInt_lt (x := A))
  have hle := Nat.mod_le A.toNat B.toNat
  have hfit : (A % B).toNat < 2 ^ (w - 1) := by
    rw [BitVec.toNat_umod]
    exact hle.trans_lt (by exact_mod_cast hlt)
  rw [toInt_of_lt hw hfit, BitVec.toNat_umod, Int.natCast_mod, toNat_of_nonneg hA,
    toNat_of_nonneg hB]

theorem msb_iff {A : BitVec w} : A.msb = true ↔ A.toInt < 0 :=
  BitVec.msb_eq_toInt ▸ decide_eq_true_iff

namespace SolveQuadraticEquationWrap

/-- The least multiple that is not below the value. -/
structure RoundedUp (V A U : Int) : Prop where
  dvd : A ∣ U
  le : V ≤ U
  lt : U < V + A

theorem RoundUp_spec (hw : 0 < w) {V A : BitVec w} (hA : 0 < A.toInt)
    (hlow : -2 ^ (w - 1) < V.toInt) (hhigh : V.toInt + A.toInt ≤ 2 ^ (w - 1)) :
    ∃ U, RoundUp V A = some U ∧ RoundedUp V.toInt A.toInt U.toInt := by
  have hne : A ≠ 0 := toInt_ne_zero_iff.mp hA.ne'
  have hpos : ¬ (A.msb = true ∨ A = 0) := by
    rw [msb_iff]
    exact fun h => h.elim (not_lt.mpr hA.le) hne
  have habs : V.abs.toInt = |V.toInt| := by
    unfold BitVec.abs
    split
    · next hmsb =>
        have hneg := msb_iff.mp hmsb
        change (-V).toInt = _
        rw [toInt_neg_of_fits ⟨by omega, by omega⟩, abs_of_neg hneg]
    · next hmsb => rw [abs_of_nonneg (not_lt.mp (msb_iff.not.mp hmsb))]
  have hT : (V.abs % A).toInt = |V.toInt| % A.toInt := by
    rw [toInt_mod_of_nonneg hw (by rw [habs]; exact abs_nonneg _) hA.le, habs]
  have hTlow := Int.emod_nonneg |V.toInt| hA.ne'
  have hTlt := Int.emod_lt_of_pos |V.toInt| hA
  have hsplit := Int.emod_add_mul_ediv |V.toInt| A.toInt
  refine ⟨_, by rw [RoundUp, if_neg hpos, urem_eq _ hne, Loop.some_bind],
    ?_⟩
  by_cases hzero : V.abs % A = 0
  · rw [if_pos hzero]
    rw [hzero, BitVec.ofNat_eq_ofNat, BitVec.toInt_zero] at hT
    exact ⟨(dvd_abs _ _).mp (Int.dvd_of_emod_eq_zero hT.symm), le_refl _, by omega⟩
  rw [if_neg hzero]
  have hTpos : 0 < |V.toInt| % A.toInt := by
    rw [← hT] at hTlow ⊢
    exact lt_of_le_of_ne hTlow (toInt_ne_zero_iff.mpr hzero).symm
  by_cases hneg : V.msb = true
  · rw [if_pos hneg]
    rw [msb_iff] at hneg
    rw [toInt_add_of_fits (by rw [hT]; exact ⟨by omega, by omega⟩), hT]
    rw [abs_of_neg hneg] at hsplit hTlow hTlt ⊢
    exact ⟨⟨-(-V.toInt / A.toInt), by linarith⟩, by omega, by omega⟩
  · rw [if_neg hneg]
    rw [msb_iff, not_lt] at hneg
    have hdiff : (A - V.abs % A).toInt = A.toInt - |V.toInt| % A.toInt := by
      rw [toInt_sub_of_fits (by rw [hT]; exact ⟨by omega, by omega⟩), hT]
    rw [toInt_add_of_fits (by rw [hdiff]; exact ⟨by omega, by omega⟩), hdiff]
    rw [abs_of_nonneg hneg] at hsplit hTpos hTlt ⊢
    exact ⟨⟨V.toInt / A.toInt + 1, by linarith⟩, by omega, by omega⟩

/-! ## The shifted parabola -/

/-- Three times the width in which the coefficients are at most `N`. -/
structure Wide (w : Nat) (N : Int) : Prop where
  width : 5 < w
  two_le : 2 ≤ N
  bound : (2 : Int) ^ (w - 1) = 4 * (N * N * N)

structure Bounded (N : Int) (A B C : BitVec w) : Prop where
  pos : 0 < A.toInt
  A_le : A.toInt ≤ N
  le_B : -N ≤ B.toInt
  B_le : B.toInt ≤ N
  le_C : -N ≤ C.toInt
  C_le : C.toInt ≤ N

theorem Wide.fits {N : Int} (hN : Wide w N) {x : Int} (hlow : -(4 * (N * N * N)) ≤ x)
    (hhigh : x < 4 * (N * N * N)) : SignedFits w x := by
  unfold SignedFits
  rw [hN.bound]
  exact ⟨hlow, hhigh⟩

theorem Wide.powers {N : Int} (hN : Wide w N) : 2 * N ≤ N * N ∧ 2 * (N * N) ≤ N * N * N := by
  have h := hN.two_le
  constructor <;> nlinarith

/-- A parabola, shifted by a multiple of the range, and which of its roots is the solution. -/
structure Shifted (a b c r c' : Int) (PickLow : Bool) : Prop where
  multiple : ∃ k, c' = c - k * r
  high : PickLow = false → c' < 0 ∧ ∀ y, 0 ≤ y → -r < parabola a b c' y
  low : PickLow = true → b < 0 ∧ 0 < c' ∧ c' < r ∧ 0 ≤ discriminant a b c'

variable {N : Int} {A B C R : BitVec w}

theorem toInt_two (hN : Wide w N) : (2 : BitVec w).toInt = 2 := by
  have h := hN.two_le
  have hpow := hN.powers
  exact toInt_ofNat_of_fits (Nat.zero_lt_of_lt hN.width) (hN.fits (by push_cast; linarith)
    (by push_cast; linarith))

theorem toInt_twoA (hN : Wide w N) (h : Bounded N A B C) : (2 * A).toInt = 2 * A.toInt := by
  have hpow := hN.powers
  have hA := h.A_le
  have hpos := h.pos
  rw [toInt_mul_of_fits (by rw [toInt_two hN]; exact hN.fits (by linarith) (by linarith)),
    toInt_two hN]

theorem square_le (h : Bounded N A B C) : B.toInt * B.toInt ≤ N * N := by
  have hlow := h.le_B
  have hhigh := h.B_le
  nlinarith

theorem toInt_square (hN : Wide w N) (h : Bounded N A B C) :
    (B * B).toInt = B.toInt * B.toInt := by
  have h2 := hN.two_le
  have hpow := hN.powers
  have hsq := square_le h
  have hnonneg := mul_self_nonneg B.toInt
  exact toInt_mul_of_fits (hN.fits (by linarith) (by linarith))

theorem shift_nonneg (hN : Wide w N) (h : Bounded N A B C) (hR : 4 ≤ R.toInt)
    (hRN : R.toInt ≤ 2 * N) (hdvd : ¬ R.toInt ∣ C.toInt) (hB : B.msb = false) :
    ∃ C' PickLow, shift A B C R = some (C', PickLow) ∧
      Shifted A.toInt B.toInt C.toInt R.toInt C'.toInt PickLow := by
  have hne : R ≠ 0 := toInt_ne_zero_iff.mp (by omega)
  have hpow := hN.powers
  have hBnonneg : 0 ≤ B.toInt := by
    rw [← not_lt, ← msb_iff, hB]
    exact Bool.false_ne_true
  have hrem : (C.srem R).toInt = C.toInt.tmod R.toInt := BitVec.toInt_srem C R
  have hsplit := Int.tmod_add_mul_tdiv C.toInt R.toInt
  have hremne : C.toInt.tmod R.toInt ≠ 0 := fun hzero => hdvd (Int.dvd_of_tmod_eq_zero hzero)
  have hremlt := Int.tmod_lt_of_pos C.toInt (show 0 < R.toInt by omega)
  have hremgt : -R.toInt < C.toInt.tmod R.toInt := by
    have hneg := Int.tmod_lt_of_pos (-C.toInt) (show 0 < R.toInt by omega)
    rw [Int.neg_tmod] at hneg
    omega
  have hshift : ∃ C', shift A B C R = some (C', false) ∧ C'.toInt < 0 ∧ -R.toInt < C'.toInt ∧
      ∃ k, C'.toInt = C.toInt - k * R.toInt := by
    unfold shift
    rw [if_pos hB, srem_eq C hne, Loop.some_bind]
    by_cases hpos : (C.srem R).msb = false ∧ C.srem R ≠ 0
    · rw [if_pos hpos]
      have hC : 0 < C.toInt.tmod R.toInt := by
        have hmsb := msb_iff.not.mp (Bool.eq_false_iff.mp hpos.1)
        omega
      have hsub : (C.srem R - R).toInt = C.toInt.tmod R.toInt - R.toInt := by
        rw [toInt_sub_of_fits (by rw [hrem]; exact hN.fits (by linarith) (by linarith)), hrem]
      refine ⟨_, rfl, ?_, ?_, C.toInt.tdiv R.toInt + 1, ?_⟩
      · rw [hsub]
        linarith
      · rw [hsub]
        linarith
      · rw [hsub]
        linarith
    · rw [if_neg hpos]
      have hC : C.toInt.tmod R.toInt < 0 := by
        by_contra hge
        apply hpos
        constructor
        · rw [Bool.eq_false_iff, ne_eq, msb_iff, hrem]
          omega
        · rw [← toInt_ne_zero_iff, hrem]
          exact hremne
      refine ⟨_, rfl, hrem ▸ hC, hrem ▸ hremgt, C.toInt.tdiv R.toInt, ?_⟩
      rw [hrem]
      linarith
  obtain ⟨C', hrun, hneg, hlow, hk⟩ := hshift
  exact ⟨C', false, hrun, hk, fun _ => ⟨hneg, lower_of_nonneg h.pos hBnonneg hlow⟩, nofun⟩

theorem lowkR_spec (hN : Wide w N) (h : Bounded N A B C) :
    ∃ V, udiv (B * B) (2 * (2 * A)) = some V ∧
      V.toInt = B.toInt * B.toInt / (4 * A.toInt) ∧ 0 ≤ V.toInt ∧ V.toInt ≤ N * N ∧
      (C - V).toInt = C.toInt - V.toInt := by
  have hpow := hN.powers
  have hA := h.A_le
  have hpos := h.pos
  have hC := h.C_le
  have hC' := h.le_C
  have hsq := square_le h
  have hnonneg := mul_self_nonneg B.toInt
  have hfour : (2 * (2 * A)).toInt = 4 * A.toInt := by
    have htwo := toInt_twoA hN h
    rw [toInt_mul_of_fits (by
      rw [toInt_two hN, htwo]; exact hN.fits (by linarith) (by linarith)), toInt_two hN, htwo]
    ring
  have hne : (2 * (2 * A)) ≠ 0 := toInt_ne_zero_iff.mp (by omega)
  have hdiv : (B * B / (2 * (2 * A))).toInt = B.toInt * B.toInt / (4 * A.toInt) := by
    rw [toInt_div_of_nonneg (Nat.zero_lt_of_lt hN.width) (by rw [toInt_square hN h]; exact hnonneg)
      (by omega), toInt_square hN h, hfour]
  have hlow : 0 ≤ B.toInt * B.toInt / (4 * A.toInt) := Int.ediv_nonneg hnonneg (by omega)
  have hhigh : B.toInt * B.toInt / (4 * A.toInt) ≤ B.toInt * B.toInt :=
    Int.ediv_le_self _ hnonneg
  refine ⟨_, udiv_eq _ hne, hdiv, hdiv ▸ hlow, ?_, ?_⟩
  · rw [hdiv]
    exact hhigh.trans hsq
  · exact toInt_sub_of_fits (by rw [hdiv]; exact hN.fits (by linarith) (by linarith))

theorem shift_neg (hN : Wide w N) (h : Bounded N A B C) (hR : 4 ≤ R.toInt)
    (hRN : R.toInt ≤ 2 * N) (hdvd : ¬ R.toInt ∣ C.toInt) (hB : ¬ B.msb = false) :
    ∃ C' PickLow, shift A B C R = some (C', PickLow) ∧
      Shifted A.toInt B.toInt C.toInt R.toInt C'.toInt PickLow := by
  have hw : 0 < w := Nat.zero_lt_of_lt hN.width
  have hRpos : 0 < R.toInt := by omega
  have hpow := hN.powers
  have hC := h.C_le
  have hC' := h.le_C
  have hbound := hN.bound
  have hBneg : B.toInt < 0 := by
    rw [← msb_iff]
    exact Bool.not_eq_false _ ▸ hB
  obtain ⟨V, hV, hvalue, hVlow, hVhigh, hsub⟩ := lowkR_spec hN h
  obtain ⟨L, hL, hrounded⟩ := RoundUp_spec (V := C - V) (A := R) hw hRpos
    (by rw [hsub, hbound]; linarith) (by rw [hsub, hbound]; linarith)
  obtain ⟨⟨m, hm⟩, hLle, hLlt⟩ := hrounded
  unfold shift
  rw [if_neg hB]
  dsimp only
  rw [hV, Option.bind_eq_bind, Option.bind_some, hL, Option.bind_some]
  by_cases hlow : L.slt C = true
  · rw [if_pos hlow]
    rw [BitVec.slt_iff_toInt_lt] at hlow
    have hnegC : (-C).toInt = -C.toInt := toInt_neg_of_fits (hN.fits (by linarith) (by linarith))
    obtain ⟨U, hU, hrounded⟩ := RoundUp_spec (V := -C) (A := R) hw hRpos
      (by rw [hnegC, hbound]; linarith) (by rw [hnegC, hbound]; linarith)
    obtain ⟨⟨k, hk⟩, hUle, hUlt⟩ := hrounded
    rw [hU, Option.bind_some]
    have hnegU : (-U).toInt = -U.toInt := toInt_neg_of_fits (hN.fits (by linarith) (by linarith))
    have hsum : (C - -U).toInt = C.toInt + U.toInt := by
      rw [toInt_sub_of_fits (by rw [hnegU]; exact hN.fits (by linarith) (by linarith)), hnegU]
      ring
    -- The lowest multiple with roots is not above the greatest one below the start.
    have hLU : L.toInt ≤ -U.toInt := by
      have hmk : m < 1 - k := by
        have hprod : R.toInt * m < R.toInt * (1 - k) := by linarith
        exact lt_of_mul_lt_mul_left hprod hRpos.le
      have hle : R.toInt * m ≤ R.toInt * -k := mul_le_mul_of_nonneg_left (by omega) hRpos.le
      linarith
    refine ⟨_, true, rfl, ⟨-k, ?_⟩, nofun, fun _ => ⟨hBneg, ?_, ?_, ?_⟩⟩
    · rw [hsum, hk]
      ring
    · rw [hsum]
      refine lt_of_le_of_ne (by linarith) fun hzero => hdvd ⟨-k, ?_⟩
      linarith
    · rw [hsum]
      linarith
    · apply discriminant_nonneg h.pos
      rw [hsum, ← hvalue]
      linarith
  · rw [if_neg hlow]
    rw [BitVec.slt_iff_toInt_lt, not_lt] at hlow
    have hdiff : (C - L).toInt = C.toInt - L.toInt :=
      toInt_sub_of_fits (hN.fits (by linarith) (by linarith))
    refine ⟨_, false, rfl, ⟨m, ?_⟩, fun _ => ⟨?_, ?_⟩, nofun⟩
    · rw [hdiff, hm]
      ring
    · rw [hdiff]
      refine lt_of_le_of_ne (by linarith) fun hzero => hdvd ⟨m, ?_⟩
      linarith
    · apply lower_of_vertex h.pos
      rw [hdiff, ← hvalue]
      linarith

theorem shift_spec (hN : Wide w N) (h : Bounded N A B C) (hR : 4 ≤ R.toInt)
    (hRN : R.toInt ≤ 2 * N) (hdvd : ¬ R.toInt ∣ C.toInt) :
    ∃ C' PickLow, shift A B C R = some (C', PickLow) ∧
      Shifted A.toInt B.toInt C.toInt R.toInt C'.toInt PickLow := by
  by_cases hB : B.msb = false
  · exact shift_nonneg hN h hR hRN hdvd hB
  · exact shift_neg hN h hR hRN hdvd hB

/-! ## The root -/

/-- A shifted parabola whose root is looked for. -/
structure Solvable (N : Int) (A B C : BitVec w) : Prop where
  pos : 0 < A.toInt
  A_le : A.toInt ≤ N
  le_B : -N ≤ B.toInt
  B_le : B.toInt ≤ N
  lt_C : -(2 * N) < C.toInt
  C_lt : C.toInt < 2 * N
  real : 0 ≤ discriminant A.toInt B.toInt C.toInt

theorem Wide.discriminant_lt {N : Int} (hN : Wide w N) :
    9 * (N * N) - 4 * N < 4 * (N * N * N) := by
  have h := hN.two_le
  have hpow := hN.powers
  nlinarith [mul_nonneg (sub_nonneg.mpr h) (show 0 ≤ 4 * (N * N) - N + 2 by linarith)]

theorem Solvable.discriminant_le {N : Int} (h : Solvable N A B C) :
    discriminant A.toInt B.toInt C.toInt ≤ 9 * (N * N) - 4 * N := by
  obtain ⟨hpos, hA, hB, hB', hC, hC', -⟩ := h
  unfold discriminant
  nlinarith

theorem toInt_discriminant (hN : Wide w N) (h : Solvable N A B C) :
    (B * B - 4 * A * C).toInt = discriminant A.toInt B.toInt C.toInt := by
  have hpow := hN.powers
  have hlt := hN.discriminant_lt
  have hle := h.discriminant_le
  obtain ⟨hpos, hA, hB, hB', hC, hC', hreal⟩ := h
  have hsq : B.toInt * B.toInt ≤ N * N := by nlinarith
  have hnonneg := mul_self_nonneg B.toInt
  have hBB : (B * B).toInt = B.toInt * B.toInt :=
    toInt_mul_of_fits (hN.fits (by linarith) (by linarith))
  have hfour : (4 : BitVec w).toInt = 4 :=
    toInt_ofNat_of_fits (Nat.zero_lt_of_lt hN.width) (hN.fits (by push_cast; linarith)
      (by push_cast; linarith))
  have hfourA : (4 * A).toInt = 4 * A.toInt := by
    rw [toInt_mul_of_fits (by rw [hfour]; exact hN.fits (by linarith) (by linarith)), hfour]
  have hAC : (4 * A * C).toInt = 4 * A.toInt * C.toInt := by
    rw [toInt_mul_of_fits (by rw [hfourA]; exact hN.fits (by nlinarith) (by nlinarith)), hfourA]
  unfold discriminant at hle hreal ⊢
  rw [toInt_sub_of_fits (by rw [hBB, hAC]; exact hN.fits (by linarith) (by linarith)), hBB, hAC]

theorem root_of_rounded (hw : 1 < w) {D SQ : BitVec w} (hD : 0 ≤ D.toInt)
    (h : IsRounded D.toNat SQ.toNat) (hfit : SQ.toNat * SQ.toNat < 2 ^ (w - 1)) :
    ∃ s, (if D.slt (SQ * SQ) then SQ - 1 else SQ).toInt = s ∧ Root D.toInt s ∧
      ((SQ * SQ != D) = false ↔ s * s = D.toInt) := by
  have hpos : 0 < w := by omega
  have hle : SQ.toNat ≤ SQ.toNat * SQ.toNat := Nat.le_mul_self _
  have hpow : 2 ^ (w - 1) ≤ 2 ^ w := Nat.pow_le_pow_right (by decide) (Nat.sub_le w 1)
  have hSQ : SQ.toInt = SQ.toNat := toInt_of_lt hpos (hle.trans_lt hfit)
  have hsquare : (SQ * SQ).toNat = SQ.toNat * SQ.toNat := by
    rw [BitVec.toNat_mul, Nat.mod_eq_of_lt (hfit.trans_le hpow)]
  have hQ : (SQ * SQ).toInt = SQ.toNat * SQ.toNat := by
    rw [toInt_of_lt hpos (hsquare ▸ hfit), hsquare]
    rfl
  have hDnat := toNat_of_nonneg hD
  have hexact : (SQ * SQ != D) = false ↔ SQ.toNat * SQ.toNat = D.toNat := by
    rw [bne_eq_false_iff_eq, ← BitVec.toNat_inj, hsquare]
  have hslt : D.slt (SQ * SQ) = true ↔ D.toNat < SQ.toNat * SQ.toNat := by
    rw [BitVec.slt_iff_toInt_lt, hQ, ← hDnat]
    exact_mod_cast Iff.rfl
  rw [hexact, ← hDnat]
  rcases h with ⟨hlow, hhigh⟩ | ⟨hlow, hhigh⟩
  · rw [if_neg (hslt.not.mpr (Nat.not_lt.mpr hlow))]
    refine ⟨SQ.toNat, hSQ, ⟨Int.natCast_nonneg _, ?_, ?_⟩, ?_⟩
    · exact_mod_cast hlow
    · exact_mod_cast hhigh
    · exact_mod_cast Iff.rfl
  · rw [if_pos (hslt.mpr hhigh)]
    have hSQpos : 1 ≤ SQ.toNat := by
      by_contra hzero
      have h0 : SQ.toNat = 0 := by omega
      rw [h0] at hhigh
      omega
    have hone : (1 : BitVec w).toInt = 1 := BitVec.toInt_one hw
    have hfit' : (SQ.toNat : Int) < 2 ^ (w - 1) := by exact_mod_cast hle.trans_lt hfit
    have hpred : (SQ - 1).toInt = SQ.toNat - 1 := by
      rw [toInt_sub_of_fits (by rw [hSQ, hone]; exact ⟨by omega, by omega⟩), hSQ, hone]
    obtain ⟨r, hr⟩ := Nat.exists_eq_add_of_le' hSQpos
    rw [hr] at hlow hhigh hpred ⊢
    rw [Nat.add_sub_cancel] at hlow
    refine ⟨r, by rw [hpred]; push_cast; ring, ⟨Int.natCast_nonneg _, ?_, ?_⟩, ?_⟩
    · exact_mod_cast hlow.le
    · exact_mod_cast hhigh
    · constructor
      · intro heq
        omega
      · intro heq
        omega

theorem rounded_square_lt (hN : Wide w N) {v r : Nat} (hv : (v : Int) ≤ 9 * (N * N) - 4 * N)
    (h : IsRounded v r) (hsmall : v ≤ 28 → r * r ≤ 25) : r * r < 2 ^ (w - 1) := by
  have h2 := hN.two_le
  have hlt := hN.discriminant_lt
  have hcast : (r : Int) * r < 2 ^ (w - 1) := by
    rw [hN.bound]
    rcases h with ⟨hle, -⟩ | ⟨hlow, hhigh⟩
    · have hle' : (r : Int) * r ≤ v := by exact_mod_cast hle
      linarith
    · rcases h2.eq_or_lt with rfl | h3
      · have hr : (r : Int) * r ≤ 25 := by exact_mod_cast hsmall (by omega)
        linarith
      · obtain ⟨k, hk⟩ : ∃ k, k = r - 1 := ⟨_, rfl⟩
        have hk3 : (k : Int) < 3 * N := by nlinarith
        have hr3 : (r : Int) ≤ 3 * N := by omega
        nlinarith
  exact_mod_cast hcast

/-- A quotient that is rounded down, with the remainder. -/
structure Rounds (num den x : Int) (exact : Prop) : Prop where
  nonneg : 0 ≤ x
  le : den * x ≤ num
  lt : num < den * (x + 1)
  exact_iff : exact ↔ den * x = num

theorem sdivrem_spec (hw : 0 < w) (LHS RHS : BitVec w) (hL : 0 ≤ LHS.toInt) (hR : 0 < RHS.toInt) :
    ∃ X Rem, sdivrem LHS RHS = some (X, Rem) ∧ Rounds LHS.toInt RHS.toInt X.toInt (Rem = 0) := by
  have hne : RHS ≠ 0 := toInt_ne_zero_iff.mp hR.ne'
  have hquo : (LHS.sdiv RHS).toInt = LHS.toInt / RHS.toInt := by
    rw [BitVec.toInt_sdiv_of_ne_or_ne, Int.tdiv_eq_ediv_of_nonneg hL]
    left
    rintro rfl
    have hmin := BitVec.toInt_intMin_of_pos hw
    have hpos := Words.int_two_pow_pos (w - 1)
    omega
  have hrem : (LHS.srem RHS).toInt = LHS.toInt % RHS.toInt := by
    rw [BitVec.toInt_srem, Int.tmod_eq_emod_of_nonneg hL]
  have hsplit := Int.emod_add_mul_ediv LHS.toInt RHS.toInt
  have hlow := Int.emod_nonneg LHS.toInt hR.ne'
  have hhigh := Int.emod_lt_of_pos LHS.toInt hR
  refine ⟨_, _, sdivrem_eq LHS hne, ?_, ?_, ?_, ?_⟩
  · rw [hquo]
    exact Int.ediv_nonneg hL hR.le
  · rw [hquo]
    linarith
  · rw [hquo]
    linarith
  · rw [hquo, ← not_iff_not, ← ne_eq, ← toInt_ne_zero_iff, hrem]
    constructor
    · intro h heq
      exact h (by linarith)
    · intro h heq
      exact h (by linarith)

section Next

variable {X : BitVec w} {s : Int}

theorem toInt_values (hN : Wide w N) (h : Solvable N A B C) (hX : 0 ≤ X.toInt)
    (hle : 2 * A.toInt * X.toInt + B.toInt ≤ s) (hs : s < 3 * N) :
    ((A * X + B) * X + C).toInt = parabola A.toInt B.toInt C.toInt X.toInt ∧
    ((A * X + B) * X + C + 2 * A * X + A + B).toInt =
      parabola A.toInt B.toInt C.toInt (X.toInt + 1) ∧
    (X + 1).toInt = X.toInt + 1 := by
  have hpow := hN.powers
  obtain ⟨hpos, hA, hB, hB', hC, hC', hreal⟩ := h
  have hXA : X.toInt ≤ A.toInt * X.toInt := by nlinarith
  have hPlow : -(2 * (N * N)) ≤ (A.toInt * X.toInt + B.toInt) * X.toInt := by nlinarith
  have hPhigh : (A.toInt * X.toInt + B.toInt) * X.toInt ≤ (2 * N - 1) * (2 * N - 1) := by
    nlinarith
  have hone : (1 : BitVec w).toInt = 1 := BitVec.toInt_one (by linarith [hN.width])
  have htwo := toInt_two hN
  have hmul : (A * X).toInt = A.toInt * X.toInt :=
    toInt_mul_of_fits (hN.fits (by linarith) (by linarith))
  have hsum : (A * X + B).toInt = A.toInt * X.toInt + B.toInt := by
    rw [toInt_add_of_fits (by rw [hmul]; exact hN.fits (by linarith) (by linarith)), hmul]
  have hprod : ((A * X + B) * X).toInt = (A.toInt * X.toInt + B.toInt) * X.toInt := by
    rw [toInt_mul_of_fits (by rw [hsum]; exact hN.fits (by linarith) (by linarith)), hsum]
  have hVX : ((A * X + B) * X + C).toInt = parabola A.toInt B.toInt C.toInt X.toInt := by
    rw [toInt_add_of_fits (by rw [hprod]; exact hN.fits (by linarith) (by linarith)), hprod,
      parabola]
  have htwoA : (2 * A).toInt = 2 * A.toInt := by
    rw [toInt_mul_of_fits (by rw [htwo]; exact hN.fits (by linarith) (by linarith)), htwo]
  have htwoAX : (2 * A * X).toInt = 2 * A.toInt * X.toInt := by
    rw [toInt_mul_of_fits (by rw [htwoA]; exact hN.fits (by linarith) (by linarith)), htwoA]
  have hVXlow : -(2 * (N * N)) - 2 * N ≤ parabola A.toInt B.toInt C.toInt X.toInt := by
    unfold parabola
    linarith
  have hVXhigh : parabola A.toInt B.toInt C.toInt X.toInt ≤ 4 * (N * N) - 2 * N + 1 := by
    unfold parabola
    linarith
  have hstep1 : ((A * X + B) * X + C + 2 * A * X).toInt =
      parabola A.toInt B.toInt C.toInt X.toInt + 2 * A.toInt * X.toInt := by
    rw [toInt_add_of_fits (by
      rw [hVX, htwoAX]; exact hN.fits (by linarith) (by linarith)), hVX, htwoAX]
  have hstep2 : ((A * X + B) * X + C + 2 * A * X + A).toInt =
      parabola A.toInt B.toInt C.toInt X.toInt + 2 * A.toInt * X.toInt + A.toInt := by
    rw [toInt_add_of_fits (by rw [hstep1]; exact hN.fits (by linarith) (by linarith)), hstep1]
  refine ⟨hVX, ?_, ?_⟩
  · rw [toInt_add_of_fits (by rw [hstep2]; exact hN.fits (by linarith) (by linarith)), hstep2,
      parabola_succ]
  · rw [toInt_add_of_fits (by rw [hone]; exact hN.fits (by linarith) (by linarith)), hone]

theorem next_eq (hN : Wide w N) (h : Solvable N A B C) (hX : 0 ≤ X.toInt)
    (hle : 2 * A.toInt * X.toInt + B.toInt ≤ s) (hs : s < 3 * N) :
    next A B C X =
      if (parabola A.toInt B.toInt C.toInt X.toInt < 0 ↔
            parabola A.toInt B.toInt C.toInt (X.toInt + 1) < 0) ∧
          (parabola A.toInt B.toInt C.toInt X.toInt = 0 ↔
            parabola A.toInt B.toInt C.toInt (X.toInt + 1) = 0)
        then none else some (X + 1) := by
  obtain ⟨hVX, hVY, -⟩ := toInt_values hN h hX hle hs
  have hzero : ∀ V : BitVec w, V = 0 ↔ V.toInt = 0 := fun V =>
    not_iff_not.mp toInt_ne_zero_iff.symm
  have hsame : ∀ VX VY : BitVec w, (VX.msb ≠ VY.msb ∨ decide (VX = 0) ≠ decide (VY = 0)) ↔
      ¬ ((VX.toInt < 0 ↔ VY.toInt < 0) ∧ (VX.toInt = 0 ↔ VY.toInt = 0)) := by
    intro VX VY
    rw [ne_eq, ne_eq, Bool.eq_iff_iff, msb_iff, msb_iff, decide_eq_decide, hzero, hzero]
    tauto
  rw [← hVX, ← hVY]
  unfold next
  rw [ite_cond_congr (propext (hsame _ _)), ite_not]

end Next

/-- The result of the search for a root. -/
def IsSolution (a b c c' r : Int) : Option (BitVec w) → Prop
  | some X => IsFirstWrap r (parabola a b c') X.toNat
  | none => RootsBetween a b c r

theorem Shifted.solvable {a b : BitVec w} {C' : BitVec w} {PickLow : Bool} {c r : Int}
    (h : Shifted a.toInt b.toInt c r C'.toInt PickLow) (hrN : r ≤ 2 * N)
    (ha : 0 < a.toInt ∧ a.toInt ≤ N) (hb : -N ≤ b.toInt ∧ b.toInt ≤ N) : Solvable N a b C' := by
  have hnonneg := mul_self_nonneg b.toInt
  cases PickLow with
  | false =>
    obtain ⟨hneg, hlow⟩ := h.high rfl
    have hstart := hlow 0 (le_refl 0)
    have hreal := square_lt_discriminant (b := b.toInt) ha.1 hneg
    simp only [parabola, mul_zero, zero_add] at hstart
    exact ⟨ha.1, ha.2, hb.1, hb.2, by linarith, by linarith, by linarith⟩
  | true =>
    obtain ⟨-, hpos, hlt, hreal⟩ := h.low rfl
    exact ⟨ha.1, ha.2, hb.1, hb.2, by linarith, by linarith, hreal⟩

/-- The rest of the search, from the square root on. -/
def finish (A B C D SQ : BitVec w) (InexactSQ PickLow : Bool) : Option (Option (BitVec w)) :=
  (formula A B SQ InexactSQ PickLow).bind fun r =>
    if r.1.msb then none
    else if InexactSQ = false ∧ r.2 = 0 then some (some r.1)
    else if ¬ (SQ * SQ).sle D then none
    else some (next A B C r.1)

theorem root_finish {roundSqrt : Nat → Nat} (hround : RoundsRoot roundSqrt) (hmax : w < 2 ^ 32)
    (hN : Wide w N) (h : Solvable N A B C) :
    ∃ (SQ : BitVec w) (InexactSQ : Bool) (enough : Nat),
      Root (discriminant A.toInt B.toInt C.toInt) SQ.toInt ∧
      (InexactSQ = false ↔ SQ.toInt * SQ.toInt = discriminant A.toInt B.toInt C.toInt) ∧
      ∀ PickLow turns, enough < turns → root roundSqrt turns A B C PickLow =
        finish A B C (B * B - 4 * A * C) SQ InexactSQ PickLow := by
  have hD := toInt_discriminant hN h
  have hle := h.discriminant_le
  have hreal := h.real
  have hlt := hN.discriminant_lt
  have hDnonneg : 0 ≤ (B * B - 4 * A * C).toInt := hD ▸ hreal
  have hDnat := toNat_of_nonneg hDnonneg
  have hw := hN.width
  have hDlt : (B * B - 4 * A * C).toNat < 2 ^ (w - 1) := by
    have hcast : ((B * B - 4 * A * C).toNat : Int) < 2 ^ (w - 1) := by
      rw [hDnat, hD, hN.bound]
      linarith
    exact_mod_cast hcast
  obtain ⟨SQ, enough, hsqrt, hrounded, hsmall⟩ := sqrt_rounded hround hw hmax hDlt
  have hfit := rounded_square_lt hN (by rw [hDnat, hD]; exact hle) hrounded hsmall
  obtain ⟨s, hs, hroot, hexact⟩ := root_of_rounded (by omega) hDnonneg hrounded hfit
  rw [hD] at hroot hexact
  refine ⟨_, _, enough, hs.symm ▸ hroot, hs.symm ▸ hexact, ?_⟩
  intro PickLow turns hturns
  have hmsb : ¬ (B * B - 4 * A * C).msb = true := by
    rw [msb_iff]
    exact not_lt.mpr hDnonneg
  rw [root]
  rw [if_neg hmsb, hsqrt turns hturns]
  rfl

section Finish

variable {SQ X Rem : BitVec w} {InexactSQ PickLow : Bool} {c r : Int}

theorem Solvable.root_lt (h : Solvable N A B C) (hN : Wide w N) {s : Int}
    (hs : Root (discriminant A.toInt B.toInt C.toInt) s) : s < 3 * N := by
  have h2 := hN.two_le
  have hle := h.discriminant_le
  have hsD := hs.le
  nlinarith

theorem finish_eq (hN : Wide w N) (h : Solvable N A B C)
    (hs : Root (discriminant A.toInt B.toInt C.toInt) SQ.toInt)
    (hformula : formula A B SQ InexactSQ PickLow = some (X, Rem)) (hX : 0 ≤ X.toInt) :
    finish A B C (B * B - 4 * A * C) SQ InexactSQ PickLow =
      if InexactSQ = false ∧ Rem = 0 then some (some X) else some (next A B C X) := by
  have hD := toInt_discriminant hN h
  have hlt := hN.discriminant_lt
  have hle := h.discriminant_le
  have hsD := hs.le
  have hnonneg := mul_self_nonneg SQ.toInt
  have hmsb : ¬ X.msb = true := by
    rw [msb_iff]
    exact not_lt.mpr hX
  have hsquare : (SQ * SQ).toInt = SQ.toInt * SQ.toInt :=
    toInt_mul_of_fits (hN.fits (by linarith) (by linarith))
  have hsle : (SQ * SQ).sle (B * B - 4 * A * C) = true := by
    rw [BitVec.sle, decide_eq_true_iff, hsquare, hD]
    exact hsD
  rw [finish, hformula, Option.bind_some]
  rw [if_neg hmsb, if_neg (not_not.mpr hsle)]

theorem finish_high (hN : Wide w N) (h : Solvable N A B C) (hr : 0 < r)
    (hs : Root (discriminant A.toInt B.toInt C.toInt) SQ.toInt)
    (hexact : InexactSQ = false ↔
      SQ.toInt * SQ.toInt = discriminant A.toInt B.toInt C.toInt)
    (hneg : C.toInt < 0) (hlow : ∀ y, 0 ≤ y → -r < parabola A.toInt B.toInt C.toInt y) :
    ∃ X, finish A B C (B * B - 4 * A * C) SQ InexactSQ false = some X ∧
      IsSolution A.toInt B.toInt c C.toInt r X := by
  have hpow := hN.powers
  have hlt := h.root_lt hN hs
  have hroot := neg_le_root h.pos hneg hs
  have hA := h.A_le
  have hpos := h.pos
  have hnegB : (-B).toInt = -B.toInt := toInt_neg_of_fits (hN.fits (by linarith) (by linarith))
  have hnum : (-B + SQ).toInt = -B.toInt + SQ.toInt := by
    rw [toInt_add_of_fits (by rw [hnegB]; exact hN.fits (by linarith) (by linarith)), hnegB]
  have htwoA : (2 * A).toInt = 2 * A.toInt := by
    have htwo := toInt_two hN
    rw [toInt_mul_of_fits (by rw [htwo]; exact hN.fits (by linarith) (by linarith)), htwo]
  obtain ⟨X, Rem, hdiv, hX, hXle, hXlt, hRem⟩ :=
    sdivrem_spec (Nat.zero_lt_of_lt hN.width) (-B + SQ) (2 * A)
      (by rw [hnum]; linarith) (by rw [htwoA]; linarith)
  rw [hnum, htwoA] at hXle hXlt hRem
  have hformula : formula A B SQ InexactSQ false = some (X, Rem) := by
    rw [formula]
    exact hdiv
  have htoNat := toNat_of_nonneg hX
  rw [finish_eq hN h hs hformula hX]
  by_cases hdone : InexactSQ = false ∧ Rem = 0
  · rw [if_pos hdone]
    refine ⟨_, rfl, ?_⟩
    rw [IsSolution, htoNat]
    exact high_exact h.pos hneg hs hr hlow (by linarith [hRem.mp hdone.2]) (hexact.mp hdone.1)
  · rw [if_neg hdone]
    obtain ⟨-, hbefore, hafter, hfirst⟩ := high_wrap h.pos hneg hs hr hlow (by linarith)
      (by linarith) fun heq hsq => hdone ⟨hexact.mpr hsq, hRem.mpr (by linarith)⟩
    refine ⟨_, rfl, ?_⟩
    have hsucc := (toInt_values hN h hX (by linarith) hlt).2.2
    have hnext : next A B C X = some (X + 1) := by
      rw [next_eq hN h hX (by linarith) hlt, if_neg]
      rintro ⟨hiff, -⟩
      exact absurd (hiff.mp hbefore) (not_lt.mpr hafter.le)
    rw [hnext, IsSolution, toNat_of_nonneg (by rw [hsucc]; omega), hsucc]
    exact hfirst

theorem rootUp_of_root {D s : Int} (hs : Root D s) (hexact : InexactSQ = false ↔ s * s = D) :
    RootUp D (s + if InexactSQ then 1 else 0) := by
  have hle := hs.le
  have hlt := hs.lt
  have hnonneg := hs.nonneg
  have hreal : 0 ≤ D := (mul_self_nonneg s).trans hle
  cases InexactSQ with
  | false =>
    have hsq := hexact.mp rfl
    simp only [Bool.false_eq_true, if_false, add_zero]
    exact ⟨hreal, hnonneg, hsq.ge, fun hpos => by nlinarith⟩
  | true =>
    have hne : s * s ≠ D := fun h => Bool.false_ne_true (hexact.mpr h).symm
    simp only [if_true]
    refine ⟨hreal, by omega, hlt.le, fun _ => ?_⟩
    rw [add_sub_cancel_right]
    exact lt_of_le_of_ne hle hne

theorem finish_low (hN : Wide w N) (h : Solvable N A B C) {k : Int} (hk : C.toInt = c - k * r)
    (hs : Root (discriminant A.toInt B.toInt C.toInt) SQ.toInt)
    (hexact : InexactSQ = false ↔
      SQ.toInt * SQ.toInt = discriminant A.toInt B.toInt C.toInt)
    (hneg : B.toInt < 0) (hpos : 0 < C.toInt) (hCr : C.toInt < r) :
    ∃ X, finish A B C (B * B - 4 * A * C) SQ InexactSQ true = some X ∧
      IsSolution A.toInt B.toInt c C.toInt r X := by
  have hpow := hN.powers
  have hlt := h.root_lt hN hs
  have hnonneg := hs.nonneg
  have hup := rootUp_of_root hs hexact
  obtain ⟨t, ht⟩ : ∃ t, t = SQ.toInt + if InexactSQ then 1 else 0 := ⟨_, rfl⟩
  rw [← ht] at hup
  have hroot := rootUp_le h.pos hneg hpos hup
  have hB := h.le_B
  have hA := h.A_le
  have hApos := h.pos
  have htnonneg := hup.nonneg
  have hnegB : (-B).toInt = -B.toInt := toInt_neg_of_fits (hN.fits (by linarith) (by linarith))
  have hinexact : (if InexactSQ then 1 else 0 : BitVec w).toInt = if InexactSQ then 1 else 0 := by
    split
    · exact BitVec.toInt_one (by linarith [hN.width])
    · exact BitVec.toInt_zero
  have hrootUp : (SQ + if InexactSQ then 1 else 0).toInt = t := by
    rw [toInt_add_of_fits (by
      rw [hinexact, ← ht]; exact hN.fits (by linarith) (by linarith)), hinexact, ← ht]
  have hnum : (-B - (SQ + if InexactSQ then 1 else 0)).toInt = -B.toInt - t := by
    rw [toInt_sub_of_fits (by
      rw [hnegB, hrootUp]; exact hN.fits (by linarith) (by linarith)), hnegB, hrootUp]
  have htwoA : (2 * A).toInt = 2 * A.toInt := by
    have htwo := toInt_two hN
    rw [toInt_mul_of_fits (by rw [htwo]; exact hN.fits (by linarith) (by linarith)), htwo]
  obtain ⟨X, Rem, hdiv, hX, hXle, hXlt, hRem⟩ :=
    sdivrem_spec (Nat.zero_lt_of_lt hN.width) (-B - (SQ + if InexactSQ then 1 else 0)) (2 * A)
      (by rw [hnum]; linarith) (by rw [htwoA]; linarith)
  rw [hnum, htwoA] at hXle hXlt hRem
  have hformula : formula A B SQ InexactSQ true = some (X, Rem) := by
    rw [formula]
    exact hdiv
  have htoNat := toNat_of_nonneg hX
  have htsq : t * t = discriminant A.toInt B.toInt C.toInt ↔ InexactSQ = false := by
    constructor
    · intro hsq
      by_contra hinexact
      rw [if_pos (Bool.not_eq_false _ ▸ hinexact)] at ht
      have hslt := hs.lt
      rw [← ht] at hslt
      exact hslt.ne' hsq
    · intro hsq
      rw [ht, hsq]
      simpa using hexact.mp hsq
  rw [finish_eq hN h hs hformula hX]
  by_cases hdone : InexactSQ = false ∧ Rem = 0
  · rw [if_pos hdone]
    refine ⟨_, rfl, ?_⟩
    rw [IsSolution, htoNat]
    exact low_exact h.pos hneg hpos hCr hup (by linarith [hRem.mp hdone.2]) (htsq.mpr hdone.1)
  · rw [if_neg hdone]
    have hle : 2 * A.toInt * X.toInt + B.toInt ≤ -t := by linarith
    have hlt' : -t < 2 * A.toInt * (X.toInt + 1) + B.toInt := by linarith
    have hne : 2 * A.toInt * X.toInt + B.toInt = -t →
        t * t ≠ discriminant A.toInt B.toInt C.toInt :=
      fun heq hsq => hdone ⟨htsq.mp hsq, hRem.mpr (by linarith)⟩
    obtain ⟨-, hbefore, hfirst⟩ := low_before h.pos hneg hpos hCr hup hle hlt' hne
    have hsucc := (toInt_values hN h hX (by linarith) hlt).2.2
    rw [next_eq hN h hX (by linarith) hlt]
    by_cases hafter : parabola A.toInt B.toInt C.toInt (X.toInt + 1) ≤ 0
    · rw [if_neg]
      · refine ⟨_, rfl, ?_⟩
        rw [IsSolution, toNat_of_nonneg (by rw [hsucc]; omega), hsucc]
        exact hfirst hafter
      · rintro ⟨hsign, hzero⟩
        omega
    · rw [if_pos ⟨by omega, by omega⟩]
      rw [not_le] at hafter
      refine ⟨none, rfl, ?_⟩
      rw [hk] at hpos hCr hup hne hafter
      exact rootsBetween_of_low h.pos hneg hpos hCr hup hle hlt' hne hafter

end Finish

theorem root_spec {roundSqrt : Nat → Nat} (hround : RoundsRoot roundSqrt) (hmax : w < 2 ^ 32)
    (hN : Wide w N) {C' : BitVec w} {PickLow : Bool} {c r : Int} (hr : 0 < r) (hrN : r ≤ 2 * N)
    (hA : 0 < A.toInt ∧ A.toInt ≤ N) (hB : -N ≤ B.toInt ∧ B.toInt ≤ N)
    (h : Shifted A.toInt B.toInt c r C'.toInt PickLow) :
    ∃ X enough, (∀ turns, enough < turns → root roundSqrt turns A B C' PickLow = some X) ∧
      IsSolution A.toInt B.toInt c C'.toInt r X := by
  have hsolvable := h.solvable hrN hA hB
  obtain ⟨SQ, InexactSQ, enough, hs, hexact, hrun⟩ := root_finish hround hmax hN hsolvable
  cases PickLow with
  | false =>
    obtain ⟨hneg, hlow⟩ := h.high rfl
    obtain ⟨X, hX, hsolution⟩ := finish_high (c := c) hN hsolvable hr hs hexact hneg hlow
    exact ⟨X, enough, fun turns hturns => (hrun false turns hturns).trans hX, hsolution⟩
  | true =>
    obtain ⟨hneg, hpos, hlt, -⟩ := h.low rfl
    obtain ⟨k, hk⟩ := h.multiple
    obtain ⟨X, hX, hsolution⟩ := finish_low hN hsolvable hk hs hexact hneg hpos hlt
    exact ⟨X, enough, fun turns hturns => (hrun true turns hturns).trans hX, hsolution⟩

/-! ## The whole function -/

variable {n RangeWidth : Nat}

theorem sextOrTrunc_eq_zero_iff (hRW : RangeWidth ≤ n) (C : BitVec n) :
    sextOrTrunc C RangeWidth = 0 ↔ (2 : Int) ^ RangeWidth ∣ C.toInt := by
  have hpow : (2 : Int) ^ RangeWidth ∣ 2 ^ n := pow_dvd_pow 2 hRW
  have htoInt : (2 : Int) ^ RangeWidth ∣ C.toInt ↔ (2 : Int) ^ RangeWidth ∣ C.toNat := by
    rw [BitVec.toInt_eq_toNat_cond]
    split
    · exact Iff.rfl
    · push_cast
      exact dvd_sub_left hpow
  rw [htoInt, sextOrTrunc, if_neg (Nat.not_lt.mpr hRW), ← BitVec.toNat_inj, BitVec.toNat_setWidth,
    BitVec.ofNat_eq_ofNat, BitVec.toNat_ofNat, Nat.zero_mod, ← Nat.dvd_iff_mod_eq_zero]
  exact_mod_cast Iff.rfl

theorem wide_three_mul (hn : 2 ≤ n) : Wide (n * 3) (2 ^ (n - 1)) := by
  refine ⟨by omega, ?_, ?_⟩
  · calc
      (2 : Int) = 2 ^ 1 := by decide
      _ ≤ 2 ^ (n - 1) := pow_le_pow_right₀ (by decide) (by omega)
  · have hexp : n * 3 - 1 = 2 + ((n - 1) + (n - 1) + (n - 1)) := by omega
    rw [hexp, pow_add, pow_add, pow_add]
    rfl

theorem normalize_spec {N : Int} (hN : Wide w N) {A B C : BitVec w} (hA : A.toInt ≠ 0)
    (hAN : |A.toInt| ≤ N) (hBN : |B.toInt| ≤ N) (hCN : |C.toInt| ≤ N) :
    ∃ A' B' C', normalize A B C = (A', B', C') ∧ Bounded N A' B' C' ∧
      A'.toInt = A.toInt.sign * A.toInt ∧ B'.toInt = A.toInt.sign * B.toInt ∧
      C'.toInt = A.toInt.sign * C.toInt := by
  have hpow := hN.powers
  obtain ⟨hA1, hA2⟩ := abs_le.mp hAN
  obtain ⟨hB1, hB2⟩ := abs_le.mp hBN
  obtain ⟨hC1, hC2⟩ := abs_le.mp hCN
  unfold normalize
  by_cases hneg : A.msb = true
  · rw [if_pos hneg]
    rw [msb_iff] at hneg
    have hAneg : (-A).toInt = -A.toInt := toInt_neg_of_fits (hN.fits (by linarith) (by linarith))
    have hBneg : (-B).toInt = -B.toInt := toInt_neg_of_fits (hN.fits (by linarith) (by linarith))
    have hCneg : (-C).toInt = -C.toInt := toInt_neg_of_fits (hN.fits (by linarith) (by linarith))
    rw [Int.sign_eq_neg_one_of_neg hneg]
    refine ⟨_, _, _, rfl, ⟨?_, ?_, ?_, ?_, ?_, ?_⟩, by omega, by omega, by omega⟩
    all_goals omega
  · rw [if_neg hneg]
    rw [msb_iff, not_lt] at hneg
    rw [Int.sign_eq_one_of_pos (by omega)]
    refine ⟨_, _, _, rfl, ⟨?_, ?_, ?_, ?_, ?_, ?_⟩, by omega, by omega, by omega⟩
    all_goals omega

theorem toInt_oneBitSet {N : Int} (hN : Wide w N) (hRW : (2 : Int) ^ RangeWidth ≤ 2 * N) :
    ((1 : BitVec w) <<< RangeWidth).toInt = 2 ^ RangeWidth := by
  have h2 := hN.two_le
  have hpow := hN.powers
  have hw := hN.width
  have hlt : 2 ^ RangeWidth < 2 ^ (w - 1) := by
    have hcast : (2 : Int) ^ RangeWidth < 2 ^ (w - 1) := by
      rw [hN.bound]
      linarith
    exact_mod_cast hcast
  have htoNat : ((1 : BitVec w) <<< RangeWidth).toNat = 2 ^ RangeWidth := by
    rw [BitVec.toNat_shiftLeft, Words.toNat_one (by omega), Nat.shiftLeft_eq, Nat.one_mul,
      Nat.mod_eq_of_lt (hlt.trans_le (Nat.pow_le_pow_right (by decide) (Nat.sub_le w 1)))]
  rw [toInt_of_lt (by omega) (htoNat ▸ hlt), htoNat]
  rfl

theorem isFirstWrap_of_shifted {a b c c' r k X : Int} (hr : 0 < r) (ha : a ≠ 0)
    (hk : c' = a.sign * c - k * r)
    (h : IsFirstWrap r (parabola (a.sign * a) (a.sign * b) c') X) :
    IsFirstWrap r (parabola a b c) X := by
  rw [hk] at h
  have hshift : IsFirstWrap r (parabola (a.sign * a) (a.sign * b) (a.sign * c)) X := by
    apply IsFirstWrap.of_shift hr (k := k)
    simpa only [← parabola_shift] using h
  rcases lt_or_gt_of_ne ha with hneg | hpos
  · rw [Int.sign_eq_neg_one_of_neg hneg] at hshift
    simp only [neg_one_mul] at hshift
    apply IsFirstWrap.of_neg hr
    simpa only [← parabola_neg] using hshift
  · rw [Int.sign_eq_one_of_pos hpos] at hshift
    simpa only [one_mul] using hshift

theorem abs_toInt_le (A : BitVec n) : |A.toInt| ≤ 2 ^ (n - 1) := by
  have hlow := BitVec.le_toInt A
  have hhigh := BitVec.toInt_lt (x := A)
  exact abs_le.mpr ⟨hlow, hhigh.le⟩

end SolveQuadraticEquationWrap

open SolveQuadraticEquationWrap

/-- The first wrap, or that there is none next to the first multiple that the parabola meets. -/
def IsFirstWrapOf {n : Nat} (A B C : BitVec n) (RangeWidth : Nat) :
    Option (Σ Width, BitVec Width) → Prop
  | some X => IsFirstWrap (2 ^ RangeWidth) (parabola A.toInt B.toInt C.toInt) X.2.toNat
  | none =>
    RootsBetween (A.toInt.sign * A.toInt) (A.toInt.sign * B.toInt) (A.toInt.sign * C.toInt)
      (2 ^ RangeWidth)

theorem SolveQuadraticEquationWrap_first {roundSqrt : Nat → Nat} (hround : RoundsRoot roundSqrt)
    {n RangeWidth : Nat} (hn : 2 ≤ n) (hwidth : n * 3 < 2 ^ 32) (hRange : 2 ≤ RangeWidth)
    (hRange' : RangeWidth ≤ n) {A : BitVec n} (hA : A ≠ 0) (B C : BitVec n) :
    ∃ X enough, (∀ turns, enough < turns →
      SolveQuadraticEquationWrap roundSqrt turns A B C RangeWidth = some X) ∧
      IsFirstWrapOf A B C RangeWidth X := by
  have hRpos : (0 : Int) < 2 ^ RangeWidth := by positivity
  have hA' : A.toInt ≠ 0 := toInt_ne_zero_iff.mpr hA
  have hone : 1 < RangeWidth := hRange
  simp only [SolveQuadraticEquationWrap, hRange', hone, not_true_eq_false, if_false]
  have hW : n * 3 % 2 ^ 32 = n * 3 := Nat.mod_eq_of_lt hwidth
  generalize n * 3 % 2 ^ 32 = W at hW ⊢
  subst hW
  by_cases hzero : sextOrTrunc C RangeWidth = 0
  · simp only [hzero, if_true]
    refine ⟨_, 0, fun _ _ => rfl, ?_⟩
    refine ⟨le_refl 0, Or.inl ?_, fun y hy hlt => absurd hlt (not_lt.mpr hy)⟩
    simpa [parabola] using (sextOrTrunc_eq_zero_iff hRange' C).mp hzero
  simp only [hzero, if_false]
  rw [sextOrTrunc_eq_zero_iff hRange'] at hzero
  have hN := wide_three_mul hn
  have hle : n ≤ n * 3 := by omega
  have hext : ∀ V : BitVec n, sext V (n * 3) = some (V.signExtend (n * 3)) := fun V => if_pos hle
  have htoInt : ∀ V : BitVec n, (V.signExtend (n * 3)).toInt = V.toInt :=
    fun V => BitVec.toInt_signExtend_of_le hle
  have hbound : ∀ V : BitVec n, |(V.signExtend (n * 3)).toInt| ≤ 2 ^ (n - 1) := fun V => by
    rw [htoInt V]
    exact abs_toInt_le V
  obtain ⟨A', B', C', hnormalize, hbounded, hAi, hBi, hCi⟩ :=
    normalize_spec hN (by rwa [htoInt A]) (hbound A) (hbound B) (hbound C)
  rw [htoInt A] at hAi
  rw [htoInt A, htoInt B] at hBi
  rw [htoInt A, htoInt C] at hCi
  have hRN : (2 : Int) ^ RangeWidth ≤ 2 * 2 ^ (n - 1) := by
    rw [← two_pow_width (by omega)]
    exact pow_le_pow_right₀ (by decide) hRange'
  have hR4 : (4 : Int) ≤ 2 ^ RangeWidth := by
    calc
      (4 : Int) = 2 ^ 2 := by decide
      _ ≤ 2 ^ RangeWidth := pow_le_pow_right₀ (by decide) hRange
  have hR := toInt_oneBitSet hN hRN
  have hdvd : ¬ (2 : Int) ^ RangeWidth ∣ C'.toInt := by
    rw [hCi]
    rcases lt_or_gt_of_ne hA' with hneg | hpos
    · rwa [Int.sign_eq_neg_one_of_neg hneg, neg_one_mul, Int.dvd_neg]
    · rwa [Int.sign_eq_one_of_pos hpos, one_mul]
  obtain ⟨C'', PickLow, hshift, hshifted⟩ := shift_spec hN hbounded
    (R := (1 : BitVec (n * 3)) <<< RangeWidth)
    (by rw [hR]; exact hR4) (by rw [hR]; exact hRN) (by rwa [hR])
  rw [hR] at hshifted
  obtain ⟨X, enough, hroot, hsolution⟩ := root_spec hround hwidth hN hRpos hRN
    ⟨hbounded.pos, hbounded.A_le⟩ ⟨hbounded.le_B, hbounded.B_le⟩ hshifted
  refine ⟨X.map fun X => ⟨n * 3, X⟩, enough, ?_, ?_⟩
  · intro turns hturns
    simp only [hext, Option.bind_eq_bind, Option.bind_some, hnormalize, hshift,
      hroot turns hturns]
  · obtain ⟨k, hk⟩ := hshifted.multiple
    rw [hCi] at hk
    cases X with
    | none =>
      rw [IsSolution, hAi, hBi, hCi] at hsolution
      exact hsolution
    | some X =>
      rw [IsSolution, hAi, hBi] at hsolution
      exact isFirstWrap_of_shifted hRpos hA' hk hsolution

def nearestRoot (v : Nat) : Nat :=
  if v ≤ Nat.sqrt v * Nat.sqrt v + Nat.sqrt v then Nat.sqrt v else Nat.sqrt v + 1

theorem nearestRoot_rounds : RoundsRoot nearestRoot := by
  intro v _
  have h := isRoot_sqrt v
  have hle := h.le
  have hlt := h.lt
  unfold nearestRoot
  split
  · exact Or.inl ⟨hle, hlt⟩
  · refine Or.inr ⟨?_, hlt⟩
    rw [Nat.add_sub_cancel]
    omega

theorem SolveQuadraticEquationWrap_first_bytes : ∃ X enough, (∀ turns, enough < turns →
      SolveQuadraticEquationWrap nearestRoot turns (3 : BitVec 8) (-90) 100 7 = some X) ∧
      IsFirstWrapOf (3 : BitVec 8) (-90) 100 7 X :=
  SolveQuadraticEquationWrap_first nearestRoot_rounds (by decide) (by decide) (by decide)
    (by decide) (by decide) (-90) 100

theorem SolveQuadraticEquationWrap_wide {n : Nat} (hn : 2 ≤ n) (hwidth : n * 3 % 2 ^ 32 < n)
    (roundSqrt : Nat → Nat) (turns : Nat) (A B : BitVec n) :
    SolveQuadraticEquationWrap roundSqrt turns A B 1 2 = none := by
  have hone : sextOrTrunc (1 : BitVec n) 2 ≠ 0 := by
    have htoInt : (1 : BitVec n).toInt = 1 := BitVec.toInt_one hn
    rw [ne_eq, sextOrTrunc_eq_zero_iff hn, htoInt]
    decide
  have htwo : 1 < 2 := by decide
  simp only [SolveQuadraticEquationWrap, hn, htwo, hone, not_true_eq_false, if_false]
  rw [sext, if_neg (Nat.not_le.mpr hwidth)]
  rfl

theorem SolveQuadraticEquationWrap_fails : (1 : BitVec 1431655766) ≠ 0 ∧
    ∀ roundSqrt turns, SolveQuadraticEquationWrap roundSqrt turns (1 : BitVec 1431655766) 0 1 2 =
      none := by
  refine ⟨?_, fun roundSqrt turns => ?_⟩
  · have htoInt : (1 : BitVec 1431655766).toInt = 1 := BitVec.toInt_one (by decide)
    rw [← toInt_ne_zero_iff, htoInt]
    decide
  · exact SolveQuadraticEquationWrap_wide (by decide) (by decide) roundSqrt turns 1 0

end SmlnjLlvm.APIntOps
