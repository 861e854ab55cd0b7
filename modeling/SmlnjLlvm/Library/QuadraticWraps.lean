import Mathlib.Analysis.Real.Sqrt
import Mathlib.Tactic.Linarith
import Mathlib.Tactic.Ring

/-!
# The first wrap of an integer function

A function wraps at a number where its value is a multiple of the range, or is in
another interval between multiples than the value before. For a parabola the
first wrap is next to a root of the parabola, shifted by a multiple.
-/

namespace SmlnjLlvm.QuadraticWraps

variable {R : ℤ} {f : ℤ → ℤ} {X : ℤ}

def Wraps (R : ℤ) (f : ℤ → ℤ) (x : ℤ) : Prop := R ∣ f x ∨ 1 ≤ x ∧ f (x - 1) / R ≠ f x / R

structure IsFirstWrap (R : ℤ) (f : ℤ → ℤ) (X : ℤ) : Prop where
  nonneg : 0 ≤ X
  wraps : Wraps R f X
  least : ∀ y, 0 ≤ y → y < X → ¬ Wraps R f y

theorem wraps_shift (hR : 0 < R) (k x : ℤ) : Wraps R (fun x => f x - k * R) x ↔ Wraps R f x := by
  have hdiv : ∀ v : ℤ, (v - k * R) / R = v / R - k := fun v => Int.sub_mul_ediv_right v k hR.ne'
  unfold Wraps
  simp only [hdiv, sub_left_inj, ne_eq, dvd_sub_left (dvd_mul_left R k)]

theorem IsFirstWrap.of_shift (hR : 0 < R) {k : ℤ} (h : IsFirstWrap R (fun x => f x - k * R) X) :
    IsFirstWrap R f X :=
  ⟨h.nonneg, (wraps_shift hR k X).mp h.wraps,
    fun y hy hlt => (wraps_shift hR k y).not.mp (h.least y hy hlt)⟩

theorem neg_ediv (hR : 0 < R) {v : ℤ} (hv : ¬ R ∣ v) : -v / R = -(v / R) - 1 := by
  have hmod : 0 < v % R :=
    lt_of_le_of_ne (Int.emod_nonneg v hR.ne') fun h => hv (Int.dvd_of_emod_eq_zero h.symm)
  have hlt := Int.emod_lt_of_pos v hR
  have hsplit := Int.emod_add_mul_ediv v R
  have hneg : -v = (R - v % R) + R * (-(v / R) - 1) := by linarith
  rw [hneg, Int.add_mul_ediv_left _ _ hR.ne',
    Int.ediv_eq_zero_of_lt (by linarith) (by linarith), zero_add]

theorem wraps_neg (hR : 0 < R) {x : ℤ} (hprev : 1 ≤ x → ¬ R ∣ f (x - 1)) :
    Wraps R (fun x => -f x) x ↔ Wraps R f x := by
  unfold Wraps
  rw [Int.dvd_neg]
  by_cases hx : R ∣ f x
  · exact iff_of_true (Or.inl hx) (Or.inl hx)
  · refine or_congr Iff.rfl (and_congr_right fun hle => ?_)
    rw [neg_ediv hR hx, neg_ediv hR (hprev hle)]
    omega

theorem IsFirstWrap.of_neg (hR : 0 < R) (h : IsFirstWrap R (fun x => -f x) X) :
    IsFirstWrap R f X := by
  have hmultiple : ∀ y, 0 ≤ y → y < X → ¬ R ∣ f y := fun y hy hlt hdvd =>
    h.least y hy hlt (Or.inl ((Int.dvd_neg).mpr hdvd))
  refine ⟨h.nonneg, ?_, ?_⟩
  · exact (wraps_neg hR fun hX => hmultiple (X - 1) (by omega) (by omega)).mp h.wraps
  · intro y hy hlt hwraps
    exact h.least y hy hlt
      ((wraps_neg hR fun _ => hmultiple (y - 1) (by omega) (by omega)).mpr hwraps)

theorem ediv_eq_of_mem {k v : ℤ} (hR : 0 < R) (hv : k * R < v ∧ v < (k + 1) * R) : v / R = k :=
  le_antisymm (Int.lt_add_one_iff.mp (Int.ediv_lt_of_lt_mul hR hv.2))
    ((Int.le_ediv_iff_mul_le hR).mpr hv.1.le)

theorem not_dvd_of_mem {k v : ℤ} (hR : 0 < R) (hv : k * R < v ∧ v < (k + 1) * R) : ¬ R ∣ v := by
  rintro ⟨m, rfl⟩
  rw [mul_comm R m] at hv
  have hlow := lt_of_mul_lt_mul_right hv.1 hR.le
  have hhigh := lt_of_mul_lt_mul_right hv.2 hR.le
  omega

theorem isFirstWrap_of_leave (hR : 0 < R) {k : ℤ} (hX : 0 ≤ X)
    (hinside : ∀ y, 0 ≤ y → y < X → k * R < f y ∧ f y < (k + 1) * R)
    (hleave : f X ≤ k * R ∨ (k + 1) * R ≤ f X) (hstart : X = 0 → R ∣ f X) :
    IsFirstWrap R f X := by
  refine ⟨hX, ?_, ?_⟩
  · by_cases hdvd : R ∣ f X
    · exact Or.inl hdvd
    · have hpos : 1 ≤ X := by
        have hne : X ≠ 0 := fun h => hdvd (hstart h)
        omega
      refine Or.inr ⟨hpos, ?_⟩
      rw [ediv_eq_of_mem hR (hinside (X - 1) (by omega) (by omega))]
      intro heq
      have hlow := Int.mul_ediv_self_le (x := f X) (k := R) hR.ne'
      have hhigh := Int.lt_mul_ediv_self_add (x := f X) (k := R) hR
      rw [← heq] at hlow hhigh
      rcases hleave with hle | hle
      · exact hdvd ⟨k, by linarith⟩
      · linarith
  · intro y hy hlt
    have hin := hinside y hy hlt
    rintro (hdvd | ⟨hpos, hne⟩)
    · exact not_dvd_of_mem hR hin hdvd
    · apply hne
      rw [ediv_eq_of_mem hR (hinside (y - 1) (by omega) (by omega)), ediv_eq_of_mem hR hin]

section Parabola

variable {a b c s : ℤ}

/-- The value, as the source computes it. -/
def parabola (a b c x : ℤ) : ℤ := (a * x + b) * x + c

def discriminant (a b c : ℤ) : ℤ := b * b - 4 * a * c

theorem four_mul_parabola (a b c x : ℤ) :
    4 * a * parabola a b c x = (2 * a * x + b) * (2 * a * x + b) - discriminant a b c := by
  unfold parabola discriminant
  ring

theorem parabola_shift (a b c k x : ℤ) :
    parabola a b (c - k) x = parabola a b c x - k := by
  unfold parabola
  ring

theorem parabola_neg (a b c x : ℤ) : parabola (-a) (-b) (-c) x = -parabola a b c x := by
  unfold parabola
  ring

theorem parabola_succ (a b c x : ℤ) :
    parabola a b c (x + 1) = parabola a b c x + 2 * a * x + a + b := by
  unfold parabola
  ring

theorem parabola_neg_iff (ha : 0 < a) (x : ℤ) : parabola a b c x < 0 ↔
    (2 * a * x + b) * (2 * a * x + b) < discriminant a b c := by
  have h := four_mul_parabola a b c x
  constructor
  · intro hneg
    nlinarith
  · intro hlt
    by_contra hge
    nlinarith

theorem parabola_pos_iff (ha : 0 < a) (x : ℤ) : 0 < parabola a b c x ↔
    discriminant a b c < (2 * a * x + b) * (2 * a * x + b) := by
  have h := four_mul_parabola a b c x
  constructor
  · intro hpos
    nlinarith
  · intro hlt
    by_contra hle
    nlinarith

theorem lower_of_nonneg (ha : 0 < a) (hb : 0 ≤ b) (hc : -R < c) :
    ∀ y, 0 ≤ y → -R < parabola a b c y := by
  intro y hy
  have hprod : 0 ≤ (a * y + b) * y := by positivity
  unfold parabola
  linarith

theorem lower_of_vertex (ha : 0 < a) (hc : -R < c - b * b / (4 * a)) :
    ∀ y, 0 ≤ y → -R < parabola a b c y := by
  intro y _
  have hvertex : -((a * y + b) * y) ≤ b * b / (4 * a) := by
    rw [Int.le_ediv_iff_mul_le (by omega)]
    nlinarith [sq_nonneg (2 * a * y + b)]
  unfold parabola
  linarith

theorem discriminant_nonneg (ha : 0 < a) (hc : c ≤ b * b / (4 * a)) : 0 ≤ discriminant a b c := by
  rw [Int.le_ediv_iff_mul_le (by omega)] at hc
  unfold discriminant
  linarith

/-- The integer square root of the discriminant. -/
structure Root (D s : ℤ) : Prop where
  nonneg : 0 ≤ s
  le : s * s ≤ D
  lt : D < (s + 1) * (s + 1)

section High

variable (ha : 0 < a) (hc : c < 0) (hs : Root (discriminant a b c) s)

include ha hc

theorem square_lt_discriminant : b * b < discriminant a b c := by
  unfold discriminant
  nlinarith

include hs

theorem neg_le_root : -b ≤ s ∧ b ≤ s := by
  have hD := square_lt_discriminant (b := b) ha hc
  have hlt := hs.lt
  have hnonneg := hs.nonneg
  constructor
  · by_contra h
    nlinarith
  · by_contra h
    nlinarith

theorem high_below {y : ℤ} (hy : 0 ≤ y) (hle : 2 * a * y + b ≤ s)
    (hne : 2 * a * y + b = s → s * s ≠ discriminant a b c) : parabola a b c y < 0 := by
  rw [parabola_neg_iff ha]
  have hD := square_lt_discriminant (b := b) ha hc
  have hsD := hs.le
  have hay : 0 ≤ 2 * a * y := by positivity
  rcases lt_or_ge (2 * a * y + b) 0 with hneg | hnonneg
  · nlinarith
  · rcases hle.lt_or_eq with hlt | heq
    · nlinarith
    · rw [heq]
      exact lt_of_le_of_ne hsD (hne heq)

variable (hR : 0 < R) (hlow : ∀ y, 0 ≤ y → -R < parabola a b c y)

include hR hlow

theorem high_exact (hX : 2 * a * X + b = s) (hexact : s * s = discriminant a b c) :
    IsFirstWrap R (parabola a b c) X := by
  have hroot := neg_le_root ha hc hs
  have hzero : parabola a b c X = 0 := by
    have h := four_mul_parabola a b c X
    rw [hX, hexact, sub_self] at h
    exact (mul_eq_zero.mp h).resolve_left (by omega)
  have hXnonneg : 0 ≤ X := by
    by_contra hneg
    nlinarith
  refine isFirstWrap_of_leave (k := -1) hR hXnonneg ?_ ?_ ?_
  · intro y hy hlt
    have hbefore : 2 * a * y + b < s := by nlinarith
    have hbelow := high_below ha hc hs hy hbefore.le fun h => absurd h hbefore.ne
    have hbound := hlow y hy
    constructor <;> linarith
  · rw [hzero]
    right
    linarith
  · intro
    rw [hzero]
    exact dvd_zero R

theorem high_wrap (hle : 2 * a * X + b ≤ s) (hlt : s < 2 * a * (X + 1) + b)
    (hne : 2 * a * X + b = s → s * s ≠ discriminant a b c) :
    0 ≤ X ∧ parabola a b c X < 0 ∧ 0 < parabola a b c (X + 1) ∧
      IsFirstWrap R (parabola a b c) (X + 1) := by
  have hroot := neg_le_root ha hc hs
  have hXnonneg : 0 ≤ X := by
    by_contra hneg
    nlinarith
  have hafter : 0 < parabola a b c (X + 1) := by
    rw [parabola_pos_iff ha]
    have hsD := hs.lt
    nlinarith
  refine ⟨hXnonneg, high_below ha hc hs hXnonneg hle hne, hafter, ?_⟩
  refine isFirstWrap_of_leave (k := -1) hR (by omega) ?_ ?_ (by omega)
  · intro y hy hyX
    have hbefore : 2 * a * y + b ≤ 2 * a * X + b := by nlinarith
    have hbelow : parabola a b c y < 0 := by
      apply high_below ha hc hs hy (hbefore.trans hle)
      intro heq
      exact hne (le_antisymm hle (heq ▸ hbefore))
    have hbound := hlow y hy
    constructor <;> linarith
  · right
    linarith

end High

/-! ### The lower root -/

/-- The square root of the discriminant, rounded up. -/
structure RootUp (D t : ℤ) : Prop where
  real : 0 ≤ D
  nonneg : 0 ≤ t
  le : D ≤ t * t
  lt : 0 < t → (t - 1) * (t - 1) < D

section Low

variable {t : ℤ} (ha : 0 < a) (hb : b < 0) (hc : 0 < c) (hcR : c < R)
  (ht : RootUp (discriminant a b c) t)

include ha

theorem low_above (ht : RootUp (discriminant a b c) t) {y : ℤ} (hle : 2 * a * y + b ≤ -t)
    (hne : 2 * a * y + b = -t → t * t ≠ discriminant a b c) : 0 < parabola a b c y := by
  rw [parabola_pos_iff ha]
  have htD := ht.le
  have hnonneg := ht.nonneg
  rcases hle.lt_or_eq with hlt | heq
  · nlinarith
  · rw [heq, neg_mul_neg]
    exact lt_of_le_of_ne htD (hne heq).symm

theorem low_le_start {y : ℤ} (hy : 0 ≤ y) (hle : 2 * a * y + b ≤ 0) : parabola a b c y ≤ c := by
  have hay : 0 ≤ a * y := by positivity
  have hprod : (a * y + b) * y ≤ 0 := mul_nonpos_of_nonpos_of_nonneg (by linarith) hy
  unfold parabola
  linarith

theorem low_inside (hcR : c < R) (ht : RootUp (discriminant a b c) t) {y : ℤ} (hy : 0 ≤ y)
    (hle : 2 * a * y + b ≤ -t) (hne : 2 * a * y + b = -t → t * t ≠ discriminant a b c) :
    0 * R < parabola a b c y ∧ parabola a b c y < (0 + 1) * R := by
  have habove := low_above ha ht hle hne
  have hstart := low_le_start (c := c) ha hy (hle.trans (by linarith [ht.nonneg]))
  constructor <;> linarith

include hb hc ht

theorem rootUp_le : t ≤ -b := by
  have hD : discriminant a b c < b * b := by
    unfold discriminant
    nlinarith
  by_contra h
  have hlt := ht.lt (by omega)
  nlinarith

include hcR

theorem low_exact (hX : 2 * a * X + b = -t) (hexact : t * t = discriminant a b c) :
    IsFirstWrap R (parabola a b c) X := by
  have htb := rootUp_le ha hb hc ht
  have hzero : parabola a b c X = 0 := by
    have h := four_mul_parabola a b c X
    rw [hX, neg_mul_neg, hexact, sub_self] at h
    exact (mul_eq_zero.mp h).resolve_left (by omega)
  have hXnonneg : 0 ≤ X := by
    by_contra hneg
    nlinarith
  refine isFirstWrap_of_leave (k := 0) (hc.trans hcR) hXnonneg ?_ ?_ ?_
  · intro y hy hlt
    have hbefore : 2 * a * y + b < -t := by nlinarith
    exact low_inside ha hcR ht hy hbefore.le fun h => absurd h hbefore.ne
  · rw [hzero]
    left
    linarith
  · intro
    rw [hzero]
    exact dvd_zero R

theorem low_before (hle : 2 * a * X + b ≤ -t) (hlt : -t < 2 * a * (X + 1) + b)
    (hne : 2 * a * X + b = -t → t * t ≠ discriminant a b c) :
    0 ≤ X ∧ 0 < parabola a b c X ∧
      (parabola a b c (X + 1) ≤ 0 → IsFirstWrap R (parabola a b c) (X + 1)) := by
  have htb := rootUp_le ha hb hc ht
  have hXnonneg : 0 ≤ X := by
    by_contra hneg
    nlinarith
  refine ⟨hXnonneg, low_above ha ht hle hne, ?_⟩
  intro hafter
  refine isFirstWrap_of_leave (k := 0) (hc.trans hcR) (by omega) ?_ ?_ (by omega)
  · intro y hy hyX
    have hbefore : 2 * a * y + b ≤ 2 * a * X + b := by nlinarith
    apply low_inside ha hcR ht hy (hbefore.trans hle)
    intro heq
    exact hne (le_antisymm hle (heq ▸ hbefore))
  · left
    linarith

omit hb hc hcR in
theorem low_between (hle : 2 * a * X + b ≤ -t) (hlt : -t < 2 * a * (X + 1) + b)
    (hne : 2 * a * X + b = -t → t * t ≠ discriminant a b c)
    (hafter : 0 < parabola a b c (X + 1)) :
    ∃ r₁ r₂ : ℝ, X < r₁ ∧ r₁ ≤ r₂ ∧ r₂ < X + 1 ∧ 2 * a * r₁ + b ≤ 0 ∧
      ∀ x : ℝ, a * x ^ 2 + b * x + c = a * (x - r₁) * (x - r₂) := by
  have hbefore := (parabola_pos_iff (c := c) ha X).mp (low_above ha ht hle hne)
  have hbehind := (parabola_pos_iff (c := c) ha (X + 1)).mp hafter
  have hnonneg := ht.nonneg
  obtain ⟨u, hu⟩ : ∃ u, u = 2 * a * X + b := ⟨_, rfl⟩
  obtain ⟨v, hv⟩ : ∃ v, v = 2 * a * (X + 1) + b := ⟨_, rfl⟩
  rw [← hu] at hle hbefore
  rw [← hv] at hlt hbehind
  have hreal := ht.real
  have huneg : u < 0 := by
    by_contra h
    have hu0 : u = 0 := by omega
    rw [hu0] at hbefore
    omega
  have hvpos : 0 < v := by
    by_contra h
    have htv := ht.lt (by omega)
    nlinarith
  obtain ⟨D, hD⟩ : ∃ D : ℝ, D = discriminant a b c := ⟨_, rfl⟩
  have hrealD : 0 ≤ D := by
    rw [hD]
    exact_mod_cast hreal
  have hsq := Real.sq_sqrt hrealD
  have hsqrt := Real.sqrt_nonneg D
  have hu' : (u : ℝ) = 2 * a * X + b := by exact_mod_cast hu
  have hv' : (v : ℝ) = 2 * a * (X + 1) + b := by exact_mod_cast hv
  have hleft : Real.sqrt D < -u := by
    rw [Real.sqrt_lt' (by exact_mod_cast neg_pos.mpr huneg), hD]
    have hcast : (discriminant a b c : ℝ) < u * u := by exact_mod_cast hbefore
    linarith [neg_sq (u : ℝ), sq (u : ℝ)]
  have hright : Real.sqrt D < v := by
    rw [Real.sqrt_lt' (by exact_mod_cast hvpos), hD, sq]
    exact_mod_cast hbehind
  have h2a : (0 : ℝ) < 2 * a := by linarith
  refine ⟨(-b - Real.sqrt D) / (2 * a), (-b + Real.sqrt D) / (2 * a), ?_, ?_, ?_, ?_, ?_⟩
  · rw [lt_div_iff₀ h2a]
    linarith
  · rw [div_le_div_iff_of_pos_right h2a]
    linarith
  · rw [div_lt_iff₀ h2a]
    linarith
  · rw [mul_div_cancel₀ _ h2a.ne']
    linarith
  · intro x
    have hdisc : D = b * b - 4 * a * c := by
      rw [hD, discriminant]
      push_cast
      ring
    field_simp
    nlinarith

end Low

/-- Both roots for the first multiple that the parabola meets are between two integers. -/
def RootsBetween (a b c R : ℤ) : Prop :=
  ∃ (k X : ℤ) (r₁ r₂ : ℝ), 0 ≤ X ∧ X < r₁ ∧ r₁ ≤ r₂ ∧ r₂ < X + 1 ∧
    (∀ x : ℝ, a * x ^ 2 + b * x + c - k * R = a * (x - r₁) * (x - r₂)) ∧
    ∀ x : ℝ, 0 ≤ x → x < r₁ → ∀ m : ℤ, a * x ^ 2 + b * x + c ≠ m * R

theorem rootsBetween_of_low {k t : ℤ} (ha : 0 < a) (hb : b < 0) (hc : 0 < c - k * R)
    (hcR : c - k * R < R) (ht : RootUp (discriminant a b (c - k * R)) t)
    (hle : 2 * a * X + b ≤ -t) (hlt : -t < 2 * a * (X + 1) + b)
    (hne : 2 * a * X + b = -t → t * t ≠ discriminant a b (c - k * R))
    (hafter : 0 < parabola a b (c - k * R) (X + 1)) : RootsBetween a b c R := by
  have hX := (low_before ha hb hc hcR ht hle hlt hne).1
  obtain ⟨r₁, r₂, hX1, hr, hX2, hvertex, hroots⟩ := low_between ha ht hle hlt hne hafter
  have hshift : ∀ x : ℝ, (a : ℝ) * x ^ 2 + b * x + c - k * R = a * (x - r₁) * (x - r₂) := by
    intro x
    rw [← hroots x]
    push_cast
    ring
  refine ⟨k, X, r₁, r₂, hX, hX1, hr, hX2, hshift, ?_⟩
  intro x hx hlt m hm
  have haR : (0 : ℝ) < a := by exact_mod_cast ha
  have hcR' : (c : ℝ) - k * R < R := by exact_mod_cast hcR
  -- Before the lower root the parabola is between the multiple and the next one.
  have hpos : 0 < (a : ℝ) * x ^ 2 + b * x + c - k * R := by
    rw [hshift x, mul_assoc]
    exact mul_pos haR (mul_pos_of_neg_of_neg (by linarith) (by linarith))
  have hbelow : (a : ℝ) * x ^ 2 + b * x + c - k * R < R := by
    have hslope : (a : ℝ) * x + b ≤ 0 := by nlinarith
    nlinarith
  rw [hm, ← sub_mul] at hpos hbelow
  have hRpos : (0 : ℝ) < R := by linarith
  have hlow : (0 : ℝ) < m - k := (mul_pos_iff_of_pos_right hRpos).mp hpos
  have hhigh : (m : ℝ) - k < 1 := by nlinarith
  have hlow' : 0 < m - k := by exact_mod_cast hlow
  have hhigh' : m - k < 1 := by exact_mod_cast hhigh
  omega

end Parabola

end SmlnjLlvm.QuadraticWraps
