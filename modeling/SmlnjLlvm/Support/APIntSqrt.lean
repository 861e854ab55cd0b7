import SmlnjLlvm.Library.IntegerSqrt
import SmlnjLlvm.Library.Loop
import SmlnjLlvm.Support.APIntOps

/-!
# The integer square root

The first loop looks for a power of two above the root, with an exponent of type
`unsigned`. The Babylonian loop goes down from there to the integer root, which
is then rounded by the square of its successor. All of it is done in the width of
the value. The values of less than 52 bits are left to the floating-point library.
-/

namespace SmlnjLlvm.APIntOps

open Support Words Loop IntegerSqrt

variable {w : Nat}

def shlBy (A : BitVec w) (ShiftAmt : Nat) : Option (BitVec w) :=
  if ShiftAmt ≤ w then some (A <<< ShiftAmt) else none

namespace sqrt

def results : List Nat :=
  [0, 1, 1, 2, 2, 2, 2, 3, 3, 3, 3, 3, 3, 4, 4, 4, 4, 4, 4, 4, 4,
    5, 5, 5, 5, 5, 5, 5, 5, 5, 5, 6]

/-- The variables of the first loop. -/
structure Start (w : Nat) where
  i : Nat
  testy : BitVec w

def startTurn (V : BitVec w) (s : Start w) : Option (Turn (Start w) (BitVec w)) :=
  if w ≤ s.i ∨ V.ule s.testy then (shlBy 1 (s.i / 2)).map .exit
  else (shlBy s.testy 2).map fun testy => .next ⟨(s.i + 2) % 2 ^ 32, testy⟩

def babylonTurn (V x_old : BitVec w) : Option (Turn (BitVec w) (BitVec w)) := do
  let quotient ← udiv V x_old
  let x_new ← udiv (quotient + x_old) 2
  if x_old.ule x_new then some (.exit x_old) else some (.next x_new)

def closest (V x_old : BitVec w) : Option (BitVec w) :=
  let square := x_old * x_old
  let nextSquare := (x_old + 1) * (x_old + 1)
  if V.ult square then some x_old
  else if V.ule nextSquare then do
    let midpoint ← udiv (nextSquare - square) 2
    let offset := V - square
    if offset.ult midpoint then some x_old else some (x_old + 1)
  else none

end sqrt

open sqrt

def sqrt (roundSqrt : Nat → Nat) (turns : Nat) (V : BitVec w) : Option (BitVec w) :=
  let magnitude := getActiveBits V
  if magnitude ≤ 5 then (results[V.toNat]?).map (BitVec.ofNat w)
  else if magnitude < 52 then some (BitVec.ofNat w (roundSqrt V.toNat))
  else do
    let x_old ← loop (startTurn V) turns ⟨4, BitVec.ofNat w 16⟩
    let x_old ← loop (babylonTurn V) turns x_old
    closest V x_old

variable {V x : BitVec w} {s : Nat}

namespace sqrt

/-! ## The first loop -/

/-- The exponent is even, and `testy` is the power while the exponent is below the width. -/
structure StartInv (s : Start w) : Prop where
  even : s.i % 2 = 0
  four_le : 4 ≤ s.i
  le_width : s.i ≤ w + 1
  power : s.i < w → s.testy.toNat = 2 ^ s.i

def Wraps (V : BitVec w) : Prop := w = 2 ^ 32 - 1 ∧ 2 ^ (w - 1) < V.toNat

/-- A power of two above the root that fits the width. -/
structure Estimate (V x : BitVec w) : Prop where
  above : V.toNat ≤ x.toNat * x.toNat
  four_le : 4 ≤ x.toNat
  room : x.toNat * x.toNat < 2 ^ (w + 2)

theorem toNat_sixteen (hw : 4 < w) : (BitVec.ofNat w 16).toNat = 2 ^ 4 := by
  have hlt : 2 ^ 4 < 2 ^ w := Nat.pow_lt_pow_right (by decide) hw
  exact Nat.mod_eq_of_lt hlt

theorem toNat_shiftLeft_two {testy : BitVec w} {i : Nat} (h : testy.toNat = 2 ^ i) :
    (testy <<< 2).toNat = 2 ^ (i + 2) % 2 ^ w := by
  rw [toNat_shl, h, ← Nat.pow_add]

theorem estimate_of_exit (hw : 8 < w) {s : Start w} (h : StartInv s)
    (hleave : w ≤ s.i ∨ V.ule s.testy = true) :
    ∃ x, shlBy (1 : BitVec w) (s.i / 2) = some x ∧ Estimate V x := by
  have heven := h.even
  have hfour := h.four_le
  have hwidth := h.le_width
  have hx : ((1 : BitVec w) <<< (s.i / 2)).toNat = 2 ^ (s.i / 2) := by
    rw [BitVec.toNat_shiftLeft, toNat_one (by omega), Nat.shiftLeft_eq, Nat.one_mul,
      Nat.mod_eq_of_lt (Nat.pow_lt_pow_right (by decide) (by omega))]
  have hsquare : 2 ^ (s.i / 2) * 2 ^ (s.i / 2) = 2 ^ s.i := by
    rw [← Nat.pow_add]
    congr 1
    omega
  refine ⟨_, by rw [shlBy, if_pos (by omega)], ?_, ?_, ?_⟩
  · rw [hx, hsquare]
    rcases Nat.lt_or_ge s.i w with hlt | hge
    · have hule := hleave.resolve_left (Nat.not_le.mpr hlt)
      rw [BitVec.ule, decide_eq_true_iff] at hule
      rwa [h.power hlt] at hule
    · exact (Nat.le_of_lt V.isLt).trans (Nat.pow_le_pow_right (by decide) hge)
  · rw [hx]
    calc
      4 = 2 ^ 2 := by decide
      _ ≤ 2 ^ (s.i / 2) := Nat.pow_le_pow_right (by decide) (by omega)
  · rw [hx, hsquare]
    exact Nat.pow_lt_pow_right (by decide) (by omega)

theorem startTurn_step (hw : 8 < w) (hmax : w < 2 ^ 32) (hno : ¬Wraps V) {s : Start w}
    (h : StartInv s) :
    ∃ t, startTurn V s = some t ∧
      t.Sat (fun s' => StartInv s' ∧ w + 2 - s'.i < w + 2 - s.i) (Estimate V) := by
  unfold startTurn
  by_cases hleave : w ≤ s.i ∨ V.ule s.testy = true
  · obtain ⟨x, hx, hest⟩ := estimate_of_exit hw h hleave
    exact ⟨.exit x, by rw [if_pos hleave, hx, Option.map_some], hest⟩
  · rw [if_neg hleave, shlBy, if_pos (by omega), Option.map_some]
    rw [not_or, Nat.not_le] at hleave
    have heven := h.even
    have hpower := h.power hleave.1
    have hlarge : 2 ^ s.i < V.toNat := by
      have hule := hleave.2
      rw [BitVec.ule, decide_eq_true_iff, hpower] at hule
      exact Nat.not_le.mp hule
    have hsmall : s.i + 2 < 2 ^ 32 := by
      by_contra hge
      -- The exponent is even, so only the largest width is left.
      have hi : s.i = w - 1 := by omega
      exact hno ⟨by omega, hi ▸ hlarge⟩
    refine ⟨_, rfl, ⟨?_, ?_, ?_, ?_⟩, ?_⟩
    · dsimp only
      omega
    · have hfour := h.four_le
      dsimp only
      omega
    · dsimp only
      omega
    · intro hlt
      rw [Nat.mod_eq_of_lt hsmall] at hlt ⊢
      rw [toNat_shiftLeft_two hpower, Nat.mod_eq_of_lt (Nat.pow_lt_pow_right (by decide) hlt)]
    · dsimp only
      omega

theorem start_spec (hw : 8 < w) (hmax : w < 2 ^ 32) (hno : ¬Wraps V) :
    ∃ x, (∀ turns, w < turns → loop (startTurn V) turns ⟨4, BitVec.ofNat w 16⟩ = some x) ∧
      Estimate V x := by
  have hinit : StartInv (⟨4, BitVec.ofNat w 16⟩ : Start w) := by
    refine ⟨(show 4 % 2 = 0 from rfl), Nat.le_refl 4, (show 4 ≤ w + 1 by omega), fun _ => ?_⟩
    exact toNat_sixteen (by omega)
  obtain ⟨x, hrun, hx⟩ := loop_total (startTurn V) (fun s => w + 2 - s.i)
    (fun _ hs => startTurn_step hw hmax hno hs) hinit
  exact ⟨x, fun turns hturns => hrun turns (by dsimp only; omega), hx⟩

/-- Once the exponent can wrap, no state of the first loop leaves it. -/
structure Wrapping (s : Start w) : Prop where
  even : s.i % 2 = 0
  lt : s.i < 2 ^ 32
  power : s.testy.toNat = 2 ^ s.i ∨ s.testy.toNat = 0

theorem startTurn_wrapping (hwrap : Wraps V) {s : Start w} (h : Wrapping s) :
    ∃ s', startTurn V s = some (.next s') ∧ Wrapping s' := by
  obtain ⟨hmax, hlarge⟩ := hwrap
  have heven := h.even
  have hlt := h.lt
  have hstay : ¬(w ≤ s.i ∨ V.ule s.testy = true) := by
    rw [not_or, BitVec.ule, decide_eq_true_iff]
    refine ⟨by omega, fun hle => ?_⟩
    have hpow : 2 ^ s.i ≤ 2 ^ (w - 1) := Nat.pow_le_pow_right (by decide) (by omega)
    have hpos := Nat.two_pow_pos (w - 1)
    rcases h.power with hp | hp
    · omega
    · omega
  refine ⟨⟨(s.i + 2) % 2 ^ 32, s.testy <<< 2⟩, ?_, ?_, ?_, ?_⟩
  · rw [startTurn, if_neg hstay, shlBy, if_pos (by omega), Option.map_some]
  · dsimp only
    omega
  · exact Nat.mod_lt _ (by decide)
  · dsimp only
    rcases h.power with hp | hp
    · rw [toNat_shiftLeft_two hp]
      rcases Nat.lt_or_ge (s.i + 2) w with hin | hout
      · left
        rw [Nat.mod_eq_of_lt (a := s.i + 2) (by omega),
          Nat.mod_eq_of_lt (Nat.pow_lt_pow_right (by decide) hin)]
      · right
        exact Nat.mod_eq_zero_of_dvd (Nat.pow_dvd_pow 2 hout)
    · right
      rw [BitVec.toNat_shiftLeft, hp, Nat.zero_shiftLeft, Nat.zero_mod]

theorem start_diverges (hwrap : Wraps V) (turns : Nat) :
    loop (startTurn V) turns ⟨4, BitVec.ofNat w 16⟩ = none := by
  have hinit : Wrapping (⟨4, BitVec.ofNat w 16⟩ : Start w) := by
    refine ⟨(show 4 % 2 = 0 from rfl), (show 4 < 2 ^ 32 by decide), Or.inl ?_⟩
    have hw : w = 2 ^ 32 - 1 := hwrap.1
    exact toNat_sixteen (by omega)
  exact loop_diverges (startTurn V) (fun _ hs => startTurn_wrapping hwrap hs) hinit turns

theorem toNat_two (hw : 1 < w) : (2 : BitVec w).toNat = 2 := by
  have hlt : 2 ^ 1 < 2 ^ w := Nat.pow_lt_pow_right (by decide) hw
  exact Nat.mod_eq_of_lt hlt

theorem two_ne_zero (hw : 1 < w) : (2 : BitVec w) ≠ 0 := by
  intro heq
  have htwo := toNat_two hw
  rw [heq] at htwo
  cases htwo

/-- An estimate that is not below the root, with room for the sum of a turn. -/
structure BabylonInv (s : Nat) (x : BitVec w) : Prop where
  root_le : s ≤ x.toNat
  room : 2 * x.toNat + 2 < 2 ^ w

theorem babylonTurn_eq (hw : 8 < w) (hs : IsRoot V.toNat s) (hpos : 0 < s) (h : BabylonInv s x) :
    ∃ x_new : BitVec w, x_new.toNat = (V.toNat / x.toNat + x.toNat) / 2 ∧
      babylonTurn V x = if x.ule x_new then some (.exit x) else some (.next x_new) := by
  have hroot := h.root_le
  have hroom := h.room
  have hx : x ≠ 0 := by
    rintro rfl
    exact absurd hpos (Nat.not_lt.mpr hroot)
  have htwo := toNat_two (w := w) (by omega)
  have htwo_ne := two_ne_zero (w := w) (by omega)
  have hdiv := div_le hs hpos hroot
  have hsum : (V / x + x).toNat = V.toNat / x.toNat + x.toNat := by
    rw [toNat_add_of_lt, BitVec.toNat_udiv]
    rw [BitVec.toNat_udiv]
    omega
  refine ⟨(V / x + x) / 2, ?_, ?_⟩
  · rw [BitVec.toNat_udiv, hsum, htwo]
  · simp only [babylonTurn, udiv_eq V hx, udiv_eq _ htwo_ne, Option.bind_eq_bind, Option.bind_some]

theorem babylonTurn_step (hw : 8 < w) (hs : IsRoot V.toNat s) (hpos : 0 < s) (h : BabylonInv s x) :
    ∃ t, babylonTurn V x = some t ∧
      t.Sat (fun x' => BabylonInv s x' ∧ x'.toNat < x.toNat) fun x' => x'.toNat = s := by
  obtain ⟨x_new, hnew, hturn⟩ := babylonTurn_eq hw hs hpos h
  have hroot := h.root_le
  have hge := le_babylon hs (x := x.toNat) (by omega)
  rw [hturn]
  by_cases hle : x.toNat ≤ x_new.toNat
  · refine ⟨.exit x, by rw [BitVec.ule, decide_eq_true hle, if_pos rfl], ?_⟩
    have hmin : ¬s < x.toNat := by
      intro hlt
      have hdown := babylon_lt hs hlt
      omega
    exact Nat.le_antisymm (Nat.not_lt.mp hmin) hroot
  · refine ⟨.next x_new, ?_, ⟨by omega, ?_⟩, Nat.not_le.mp hle⟩
    · rw [BitVec.ule, decide_eq_false hle, if_neg Bool.false_ne_true]
    · have hroom := h.room
      omega

theorem Estimate.babylonInv (hw : 8 < w) (h : Estimate V x) (hs : IsRoot V.toNat s) :
    BabylonInv s x := by
  have habove := h.above
  have hle := hs.le
  constructor
  · by_contra hlt
    have hsq : x.toNat * x.toNat < s * s := Nat.mul_self_lt_mul_self (Nat.not_le.mp hlt)
    omega
  · have hfour := h.four_le
    have hroom := h.room
    by_contra hge
    -- Four times the width is far below the square of a quarter of it.
    have hquarter : 2 ^ (w - 2) ≤ x.toNat := by
      have hpow : 2 ^ w = 4 * 2 ^ (w - 2) := by
        rw [show 4 = 2 ^ 2 by rfl, ← Nat.pow_add]
        congr 1
        omega
      omega
    have hsq : 2 ^ (w - 2) * 2 ^ (w - 2) ≤ x.toNat * x.toNat := Nat.mul_le_mul hquarter hquarter
    rw [← Nat.pow_add] at hsq
    have hfar : 2 ^ (w + 2) ≤ 2 ^ (w - 2 + (w - 2)) := Nat.pow_le_pow_right (by decide) (by omega)
    omega

theorem babylon_spec (hw : 8 < w) (hs : IsRoot V.toNat s) (hpos : 0 < s) (h : BabylonInv s x) :
    ∃ r, (∀ turns, x.toNat < turns → loop (babylonTurn V) turns x = some r) ∧ r.toNat = s :=
  loop_total (babylonTurn V) BitVec.toNat (fun _ hx => babylonTurn_step hw hs hpos hx) h

theorem toNat_square (hs : IsRoot V.toNat x.toNat) : (x * x).toNat = x.toNat * x.toNat := by
  rw [BitVec.toNat_mul, Nat.mod_eq_of_lt (Nat.lt_of_le_of_lt hs.le V.isLt)]

theorem toNat_succ (hs : IsRoot V.toNat x.toNat) (hx : 2 < x.toNat) :
    (x + 1).toNat = x.toNat + 1 := by
  have hV := V.isLt
  have hle := hs.le
  have hlt : x.toNat + 1 < 2 ^ w := by nlinarith
  have hw : 0 < w := by
    refine Nat.pos_of_ne_zero ?_
    rintro rfl
    omega
  rw [toNat_add_one hw, Nat.mod_eq_of_lt hlt]

theorem closest_eq_none (hs : IsRoot V.toNat x.toNat) (hx : 2 < x.toNat)
    (hbig : 2 ^ w ≤ (x.toNat + 1) * (x.toNat + 1)) : closest V x = none := by
  have hle := hs.le
  have hexpand : (x.toNat + 1) * (x.toNat + 1) = x.toNat * x.toNat + 2 * x.toNat + 1 := by ring
  have hthree : 3 * x.toNat ≤ x.toNat * x.toNat := Nat.mul_le_mul_right _ hx
  have hnext : ((x + 1) * (x + 1)).toNat = (x.toNat + 1) * (x.toNat + 1) - 2 ^ w := by
    rw [BitVec.toNat_mul, toNat_succ hs hx, Nat.mod_eq_sub_mod hbig, Nat.mod_eq_of_lt]
    omega
  have hfails : ¬V.toNat ≤ ((x + 1) * (x + 1)).toNat := by
    rw [hnext, Nat.not_le]
    omega
  have hnot : ¬V.toNat < (x * x).toNat := by
    rw [toNat_square hs]
    exact Nat.not_lt.mpr hle
  simp only [closest, BitVec.ult, BitVec.ule, decide_eq_false hnot, decide_eq_false hfails,
    Bool.false_eq_true, if_false]

theorem closest_eq (hs : IsRoot V.toNat x.toNat) (hx : 2 < x.toNat)
    (hfit : (x.toNat + 1) * (x.toNat + 1) < 2 ^ w) :
    ∃ r, closest V x = some r ∧
      r.toNat = if V.toNat < x.toNat * x.toNat + x.toNat then x.toNat else x.toNat + 1 := by
  have hle := hs.le
  have hlt := hs.lt
  have hexpand : (x.toNat + 1) * (x.toNat + 1) = x.toNat * x.toNat + 2 * x.toNat + 1 := by ring
  have hsquare := toNat_square hs
  have hnext : ((x + 1) * (x + 1)).toNat = (x.toNat + 1) * (x.toNat + 1) := by
    rw [BitVec.toNat_mul, toNat_succ hs hx, Nat.mod_eq_of_lt hfit]
  have hw : 1 < w := by
    by_contra hsmall
    have hpow : 2 ^ w ≤ 2 ^ 1 := Nat.pow_le_pow_right (by decide) (by omega)
    omega
  have htwo := toNat_two hw
  have htwo_ne := two_ne_zero hw
  have hmid : (((x + 1) * (x + 1) - x * x) / 2).toNat = x.toNat := by
    rw [BitVec.toNat_udiv, toNat_sub_of_le (by omega), hnext, hsquare, htwo]
    omega
  have hoffset : (V - x * x).toNat = V.toNat - x.toNat * x.toNat := by
    rw [toNat_sub_of_le (by omega), hsquare]
  have hnot : ¬V.toNat < (x * x).toNat := by omega
  have hassert : V.toNat ≤ ((x + 1) * (x + 1)).toNat := by omega
  simp only [closest, BitVec.ult, BitVec.ule, decide_eq_false hnot, decide_eq_true hassert,
    Bool.false_eq_true, if_false, if_true, udiv_eq _ htwo_ne, Option.bind_eq_bind,
    Option.bind_some, hmid, hoffset]
  by_cases hround : V.toNat < x.toNat * x.toNat + x.toNat
  · have hdec : V.toNat - x.toNat * x.toNat < x.toNat := by omega
    refine ⟨x, ?_, by rw [if_pos hround]⟩
    rw [decide_eq_true hdec, if_pos rfl]
  · have hdec : ¬V.toNat - x.toNat * x.toNat < x.toNat := by omega
    refine ⟨x + 1, ?_, by rw [if_neg hround, toNat_succ hs hx]⟩
    rw [decide_eq_false hdec, if_neg Bool.false_ne_true]

/-! ## The whole function -/

theorem large_of_activeBits (h : 52 ≤ getActiveBits V) : 51 < w ∧ 2 ^ 51 ≤ V.toNat := by
  have hw : 52 ≤ w := h.trans (Nat.sub_le _ _)
  refine ⟨by omega, ?_⟩
  by_contra hlt
  have hle := (getActiveBits_le_iff (V := V) (d := 51) (by omega)).mpr (Nat.not_le.mp hlt)
  omega

theorem root_gt (h : 2 ^ 51 ≤ V.toNat) (hs : IsRoot V.toNat s) : 2 < s := by
  by_contra hle
  have hsq : (s + 1) * (s + 1) ≤ 3 * 3 := Nat.mul_le_mul (by omega) (by omega)
  have hlt := hs.lt
  omega

theorem sqrt_of_large {roundSqrt : Nat → Nat} (h : 52 ≤ getActiveBits V) (turns : Nat) :
    sqrt roundSqrt turns V = (loop (startTurn V) turns ⟨4, BitVec.ofNat w 16⟩).bind
      fun x => (loop (babylonTurn V) turns x).bind (closest V) := by
  unfold sqrt
  rw [if_neg (by omega), if_neg (by omega)]
  rfl

theorem sqrt_eq_closest (hmax : w < 2 ^ 32) (roundSqrt : Nat → Nat) (h : 52 ≤ getActiveBits V)
    (hno : ¬Wraps V) :
    ∃ (x : BitVec w) (enough : Nat), IsRoot V.toNat x.toNat ∧ 2 < x.toNat ∧
      ∀ turns, enough < turns → sqrt roundSqrt turns V = closest V x := by
  obtain ⟨hw, hlarge⟩ := large_of_activeBits h
  have hs := isRoot_sqrt V.toNat
  have hgt := root_gt hlarge hs
  obtain ⟨x₀, hstart, hest⟩ := start_spec (by omega) hmax hno
  obtain ⟨x, hrun, hx⟩ := babylon_spec (by omega) hs (by omega) (hest.babylonInv (by omega) hs)
  refine ⟨x, w + x₀.toNat, hx ▸ hs, hx ▸ hgt, ?_⟩
  intro turns hturns
  rw [sqrt_of_large h, hstart turns (by omega), Option.bind_some, hrun turns (by omega),
    Option.bind_some]

def Settles (roundSqrt : Nat → Nat) (V : BitVec w) : Prop :=
  ∃ (R : BitVec w) (enough : Nat), (∀ turns, enough < turns → sqrt roundSqrt turns V = some R) ∧
    IsNearest V.toNat R.toNat

/-- A square above the value fits the width, and the value is not next to a midpoint. -/
structure Regular (V : BitVec w) : Prop where
  square : ∃ n, V.toNat < n * n ∧ n * n < 2 ^ w
  midpoint : ∀ n, V.toNat ≠ n * n + n
  exponent : ¬Wraps V

theorem exists_square_iff (hs : IsRoot V.toNat s) :
    (∃ n, V.toNat < n * n ∧ n * n < 2 ^ w) ↔ (s + 1) * (s + 1) < 2 ^ w := by
  have hle := hs.le
  constructor
  · rintro ⟨n, hlo, hhi⟩
    have hsn : s < n := by
      by_contra hge
      have hsq : n * n ≤ s * s := Nat.mul_le_mul (Nat.not_lt.mp hge) (Nat.not_lt.mp hge)
      omega
    have hsq : (s + 1) * (s + 1) ≤ n * n := Nat.mul_le_mul hsn hsn
    omega
  · intro hfit
    exact ⟨s + 1, hs.lt, hfit⟩

theorem forall_midpoint_iff (hs : IsRoot V.toNat s) :
    (∀ n, V.toNat ≠ n * n + n) ↔ V.toNat ≠ s * s + s := by
  refine ⟨fun hall => hall s, fun hne n heq => ?_⟩
  have hle := hs.le
  have hlt := hs.lt
  have hroot : n = s := by
    rcases Nat.lt_trichotomy n s with hns | hns | hns
    · have hsq : (n + 1) * (n + 1) ≤ s * s := Nat.mul_le_mul hns hns
      nlinarith
    · exact hns
    · have hsq : (s + 1) * (s + 1) ≤ n * n := Nat.mul_le_mul hns hns
      omega
  exact hne (hroot ▸ heq)

/-- Just the regular values have their nearest root as the result. -/
theorem settles_iff (hmax : w < 2 ^ 32) (roundSqrt : Nat → Nat) {V : BitVec w}
    (h : 52 ≤ getActiveBits V) : Settles roundSqrt V ↔ Regular V := by
  by_cases hwrap : Wraps V
  · constructor
    · rintro ⟨R, enough, hrun, -⟩
      have hnone := hrun (enough + 1) (Nat.lt_succ_self _)
      rw [sqrt_of_large h, start_diverges hwrap] at hnone
      cases hnone
    · intro hreg
      exact absurd hwrap hreg.exponent
  · obtain ⟨x, enough, hs, hx, hrun⟩ := sqrt_eq_closest hmax roundSqrt h hwrap
    have hle := hs.le
    constructor
    · rintro ⟨R, enough', hrun', hnear⟩
      have hR : closest V x = some R := by
        rw [← hrun (enough + enough' + 1) (by omega), hrun' _ (by omega)]
      have hfit : (x.toNat + 1) * (x.toNat + 1) < 2 ^ w := by
        by_contra hge
        rw [closest_eq_none hs hx (Nat.not_lt.mp hge)] at hR
        cases hR
      refine ⟨(exists_square_iff hs).mpr hfit, (forall_midpoint_iff hs).mpr ?_, hwrap⟩
      intro heq
      obtain ⟨r, hr, hval⟩ := closest_eq hs hx hfit
      rw [hr, Option.some.injEq] at hR
      rw [isNearest_iff hs, ← hR, hval] at hnear
      split_ifs at hnear <;> omega
    · intro hreg
      have hfit := (exists_square_iff hs).mp hreg.square
      have hne := (forall_midpoint_iff hs).mp hreg.midpoint
      obtain ⟨r, hr, hval⟩ := closest_eq hs hx hfit
      refine ⟨r, enough, fun turns hturns => by rw [hrun turns hturns, hr], ?_⟩
      rw [isNearest_iff hs, hval]
      split_ifs <;> omega

theorem settles_iff_of_square : 64 < 2 ^ 32 ∧ 52 ≤ getActiveBits (0x1000000000000000 : BitVec 64) ∧
    (Settles id (0x1000000000000000 : BitVec 64) ↔ Regular (0x1000000000000000 : BitVec 64)) :=
  ⟨by decide, by decide, settles_iff (by decide) id (by decide)⟩

/-- The value just below a midpoint is rounded up. -/
theorem midpoint_rounds_up :
    52 ≤ getActiveBits (0x1000000040000000 : BitVec 64) ∧
      sqrt id 40 (0x1000000040000000 : BitVec 64) = some 0x40000001 ∧
      ¬IsNearest 0x1000000040000000 0x40000001 := by
  have hs : IsRoot 0x1000000040000000 0x40000000 := ⟨by decide, by decide⟩
  refine ⟨by decide, by decide +kernel, ?_⟩
  rw [isNearest_iff hs]
  decide

end sqrt

end SmlnjLlvm.APIntOps
