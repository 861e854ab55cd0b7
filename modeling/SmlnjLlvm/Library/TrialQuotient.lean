import Mathlib.Algebra.Order.Ring.Nat
import Mathlib.Tactic.Ring
import Mathlib.Tactic.Linarith

/-!
# Trial quotients

Long division guesses a digit of the quotient from the leading two digits of
the dividend and the leading one of the divisor, and corrects the guess with
one more digit of each, at most twice. For a leading digit of at least half the
base the result is the digit or one more.
-/

namespace SmlnjLlvm.TrialQuotient

/-- The guess for the digit, corrected. -/
def trial (b v₁ v₂ top u₂ : Nat) : Nat :=
  let qp := top / v₁
  let rp := top % v₁
  if qp = b ∨ b * rp + u₂ < qp * v₂ then
    let qp := qp - 1
    let rp := rp + v₁
    if rp < b ∧ (qp = b ∨ b * rp + u₂ < qp * v₂) then qp - 1 else qp
  else qp

/--
The digits that are looked at: `W` is the dividend and `V` the divisor, of
which the trial ignores the factor `B` and what is below it.
-/
structure Setting (b v₁ v₂ uh um u₂ B W V : Nat) : Prop where
  normal : b ≤ 2 * v₁
  v₁_lt : v₁ < b
  v₂_lt : v₂ < b
  um_lt : um < b
  u₂_lt : u₂ < b
  base : 0 < B
  le_V : (v₁ * b + v₂) * B ≤ V
  V_lt : V < (v₁ * b + v₂ + 1) * B
  le_W : ((uh * b + um) * b + u₂) * B ≤ W
  W_lt : W < ((uh * b + um) * b + u₂ + 1) * B
  fits : W < b * V

variable {b v₁ v₂ uh um u₂ B W V : Nat}

namespace Setting

theorem v₁_pos (h : Setting b v₁ v₂ uh um u₂ B W V) : 0 < v₁ := by
  have hn := h.normal
  have hv := h.v₁_lt
  omega

theorem V_pos (h : Setting b v₁ v₂ uh um u₂ B W V) : 0 < V :=
  Nat.lt_of_lt_of_le (Nat.mul_pos (Nat.add_pos_left
    (Nat.mul_pos h.v₁_pos (Nat.lt_of_le_of_lt (Nat.zero_le _) h.v₁_lt)) _) h.base) h.le_V

theorem digit_lt (h : Setting b v₁ v₂ uh um u₂ B W V) : W / V < b :=
  (Nat.div_lt_iff_lt_mul h.V_pos).mpr h.fits

theorem uh_le (h : Setting b v₁ v₂ uh um u₂ B W V) : uh ≤ v₁ := by
  by_contra hgt
  have hlow : (v₁ + 1) * b * b * B ≤ W := by
    refine Nat.le_trans (Nat.mul_le_mul_right B ?_) h.le_W
    have huh : (v₁ + 1) * b ≤ uh * b := Nat.mul_le_mul_right b (Nat.not_le.mp hgt)
    have hmul := Nat.mul_le_mul_right b (Nat.le_trans huh (Nat.le_add_right _ um))
    exact Nat.le_trans hmul (Nat.le_add_right _ _)
  have hhigh : b * V < b * ((v₁ + 1) * b * B) := by
    refine Nat.mul_lt_mul_of_pos_left (Nat.lt_of_lt_of_le h.V_lt ?_) (Nat.lt_of_le_of_lt
      (Nat.zero_le _) h.v₁_lt)
    refine Nat.mul_le_mul_right B ?_
    have hv₂ := h.v₂_lt
    rw [Nat.succ_mul]
    omega
  have hcomm : b * ((v₁ + 1) * b * B) = (v₁ + 1) * b * b * B := by ring
  have hfits := h.fits
  omega

theorem guess_le (h : Setting b v₁ v₂ uh um u₂ B W V) : (uh * b + um) / v₁ ≤ b + 1 := by
  refine Nat.le_of_lt_succ ((Nat.div_lt_iff_lt_mul h.v₁_pos).mpr ?_)
  have huh := Nat.mul_le_mul_right b h.uh_le
  have hn := h.normal
  have hum := h.um_lt
  have hmul : (b + 1 + 1) * v₁ = v₁ * b + 2 * v₁ := by ring
  rw [Nat.succ_eq_add_one, hmul]
  omega

theorem lt_of_lt_mul (h : Setting b v₁ v₂ uh um u₂ B W V) {x : Nat}
    (hx : (uh * b + um) * b + u₂ < x * (v₁ * b + v₂)) : W / V < x := by
  rw [Nat.div_lt_iff_lt_mul h.V_pos]
  calc W < ((uh * b + um) * b + u₂ + 1) * B := h.W_lt
    _ ≤ x * (v₁ * b + v₂) * B := Nat.mul_le_mul_right B hx
    _ = x * ((v₁ * b + v₂) * B) := Nat.mul_assoc _ _ _
    _ ≤ x * V := Nat.mul_le_mul_left x h.le_V

theorem le_of_mul_le (h : Setting b v₁ v₂ uh um u₂ B W V) {x : Nat} (hb : x ≤ b + 1)
    (hx : x * (v₁ * b + v₂) ≤ (uh * b + um) * b + u₂) : x ≤ W / V + 1 := by
  by_contra hgt
  have hx₀ : x ≠ 0 := fun hzero => hgt (hzero ▸ Nat.zero_le _)
  obtain ⟨y, rfl⟩ := Nat.exists_eq_succ_of_ne_zero hx₀
  have hW : W < y * V := by
    have hdiv := Nat.lt_mul_div_succ W h.V_pos
    have hmul := Nat.mul_le_mul_right V (by omega : W / V + 1 ≤ y)
    rw [Nat.mul_comm] at hdiv
    omega
  have hchain : (y + 1) * (v₁ * b + v₂) * B < y * (v₁ * b + v₂ + 1) * B := by
    calc (y + 1) * (v₁ * b + v₂) * B ≤ ((uh * b + um) * b + u₂) * B := Nat.mul_le_mul_right B hx
      _ ≤ W := h.le_W
      _ < y * V := hW
      _ ≤ y * ((v₁ * b + v₂ + 1) * B) := Nat.mul_le_mul_left y (Nat.le_of_lt h.V_lt)
      _ = y * (v₁ * b + v₂ + 1) * B := (Nat.mul_assoc _ _ _).symm
  have hlt := Nat.lt_of_mul_lt_mul_right hchain
  have hleft : (y + 1) * (v₁ * b + v₂) = y * (v₁ * b + v₂) + (v₁ * b + v₂) := Nat.succ_mul _ _
  have hright : y * (v₁ * b + v₂ + 1) = y * (v₁ * b + v₂) + y := Nat.mul_succ _ _
  have hv₁ : 1 * b ≤ v₁ * b := Nat.mul_le_mul_right b h.v₁_pos
  omega

theorem le_guess (h : Setting b v₁ v₂ uh um u₂ B W V) : W / V ≤ (uh * b + um) / v₁ := by
  rw [Nat.le_div_iff_mul_le h.v₁_pos]
  have hchain : W / V * (v₁ * b + v₂) * B < ((uh * b + um) * b + u₂ + 1) * B := by
    calc W / V * (v₁ * b + v₂) * B = W / V * ((v₁ * b + v₂) * B) := Nat.mul_assoc _ _ _
      _ ≤ W / V * V := Nat.mul_le_mul_left _ h.le_V
      _ ≤ W := Nat.div_mul_le_self W V
      _ < ((uh * b + um) * b + u₂ + 1) * B := h.W_lt
  have hlt := Nat.lt_of_mul_lt_mul_right hchain
  have hu₂ := h.u₂_lt
  refine Nat.le_of_lt_succ (Nat.lt_of_mul_lt_mul_right (a := b) ?_)
  rw [Nat.mul_add, ← Nat.mul_assoc] at hlt
  rw [Nat.succ_mul]
  omega

theorem test_iff {x r : Nat} (hr : x * v₁ + r = uh * b + um) :
    b * r + u₂ < x * v₂ ↔ (uh * b + um) * b + u₂ < x * (v₁ * b + v₂) := by
  rw [← hr]
  have hleft : (x * v₁ + r) * b + u₂ = x * v₁ * b + (b * r + u₂) := by ring
  have hright : x * (v₁ * b + v₂) = x * v₁ * b + x * v₂ := by ring
  rw [hleft, hright]
  omega

end Setting

theorem trial_spec (h : Setting b v₁ v₂ uh um u₂ B W V) :
    W / V ≤ trial b v₁ v₂ (uh * b + um) u₂ ∧
      trial b v₁ v₂ (uh * b + um) u₂ ≤ W / V + 1 ∧
      trial b v₁ v₂ (uh * b + um) u₂ < b := by
  have hq := h.digit_lt
  have hn := h.normal
  have hv₂ := h.v₂_lt
  have hpos := h.v₁_pos
  have hguess := h.guess_le
  have hle := h.le_guess
  have hrem := Nat.mod_lt (uh * b + um) hpos
  have hsplit : (uh * b + um) / v₁ * v₁ + (uh * b + um) % v₁ = uh * b + um := by
    rw [Nat.mul_comm]
    exact Nat.div_add_mod _ _
  have huh := Nat.mul_le_mul_right b h.uh_le
  have hum := h.um_lt
  unfold trial
  generalize (uh * b + um) / v₁ = qp at hguess hle hsplit ⊢
  generalize (uh * b + um) % v₁ = rp at hrem hsplit ⊢
  -- a multiple with a remainder of at least the base passes the test
  have hlarge : ∀ x r, x ≤ b → b ≤ r → ¬ b * r + u₂ < x * v₂ := by
    intro x r hx hr
    have hleft := Nat.mul_le_mul hx (Nat.le_of_lt hv₂)
    have hright := Nat.mul_le_mul_left b hr
    omega
  by_cases htest : qp = b ∨ b * rp + u₂ < qp * v₂
  · rw [if_pos htest]
    have hbelow : W / V ≤ qp - 1 := by
      rcases htest with heq | hlt
      · omega
      · have hlt' := h.lt_of_lt_mul ((Setting.test_iff hsplit).mp hlt)
        omega
    have hqp : 0 < qp := by
      rcases htest with heq | hlt
      · omega
      · exact Nat.pos_of_ne_zero fun hzero => by
          rw [hzero, Nat.zero_mul] at hlt
          exact Nat.not_lt_zero _ hlt
    have hsplit' : (qp - 1) * v₁ + (rp + v₁) = uh * b + um := by
      obtain ⟨y, rfl⟩ := Nat.exists_eq_succ_of_ne_zero (Nat.ne_of_gt hqp)
      rw [Nat.succ_eq_add_one, Nat.succ_mul] at hsplit
      rw [Nat.succ_eq_add_one, Nat.add_sub_cancel]
      omega
    by_cases htest' : rp + v₁ < b ∧ (qp - 1 = b ∨ b * (rp + v₁) + u₂ < (qp - 1) * v₂)
    · rw [if_pos htest']
      have hbelow' : W / V ≤ qp - 1 - 1 := by
        rcases htest'.2 with heq | hlt
        · omega
        · have hlt' := h.lt_of_lt_mul ((Setting.test_iff hsplit').mp hlt)
          omega
      have hqp' : 0 < qp - 1 := by
        rcases htest'.2 with heq | hlt
        · omega
        · exact Nat.pos_of_ne_zero fun hzero => by
            rw [hzero, Nat.zero_mul] at hlt
            exact Nat.not_lt_zero _ hlt
      have hsplit'' : (qp - 1 - 1) * v₁ + (rp + v₁ + v₁) = uh * b + um := by
        obtain ⟨y, hy⟩ := Nat.exists_eq_succ_of_ne_zero (Nat.ne_of_gt hqp')
        rw [hy, Nat.succ_eq_add_one, Nat.succ_mul] at hsplit'
        rw [hy, Nat.succ_eq_add_one, Nat.add_sub_cancel]
        omega
      have hpass : ¬ (uh * b + um) * b + u₂ < (qp - 1 - 1) * (v₁ * b + v₂) :=
        mt (Setting.test_iff hsplit'').mpr
          (hlarge (qp - 1 - 1) (rp + v₁ + v₁) (by omega) (by omega))
      exact ⟨hbelow', h.le_of_mul_le (by omega) (Nat.not_lt.mp hpass), by omega⟩
    · rw [if_neg htest']
      rw [not_and_or, not_or] at htest'
      have hpass : ¬ b * (rp + v₁) + u₂ < (qp - 1) * v₂ := by
        rcases htest' with hbig | hsmall
        · exact hlarge _ _ (by omega) (Nat.not_lt.mp hbig)
        · exact hsmall.2
      have hupper := h.le_of_mul_le (x := qp - 1) (by omega)
        (Nat.not_lt.mp (mt (Setting.test_iff hsplit').mpr hpass))
      refine ⟨hbelow, hupper, ?_⟩
      rcases htest' with hbig | hsmall
      · -- a guess of two more than the largest digit leaves a small remainder
        by_contra hge
        have heq : qp - 1 = b := by omega
        rw [heq, Nat.mul_comm] at hsplit'
        omega
      · omega
  · rw [if_neg htest]
    rw [not_or] at htest
    have hupper := h.le_of_mul_le hguess
      (Nat.not_lt.mp (mt (Setting.test_iff hsplit).mpr htest.2))
    exact ⟨hle, hupper, by omega⟩

end SmlnjLlvm.TrialQuotient
