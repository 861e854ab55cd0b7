import SmlnjLlvm.Support.KnownBitsDiv

/-!
# Known bits of remainders

A remainder keeps the bits below the trailing zeros of the divisor. It is smaller
than the divisor and not larger than the dividend, and a power of two as divisor
fixes all bits above its own.
-/

namespace SmlnjLlvm.KnownBits

open Support APIntOps BitOrder LowBits Words

variable {w : Nat}

/-- `isConstant`, without the assertion that there is no conflict. -/
def isConstant (K : KnownBits w) : Bool := popcount K.Zero + popcount K.One == w

def remGetLowBits (LHS RHS : KnownBits w) : KnownBits w :=
  if !RHS.isZero && RHS.Zero.getLsbD 0 then
    let Mask := getLowBitsSet w RHS.countMinTrailingZeros
    ⟨LHS.Zero &&& Mask, LHS.One &&& Mask⟩
  else unknown w

def urem (LHS RHS : KnownBits w) : Option (KnownBits w) :=
  if LHS.hasConflict || RHS.hasConflict then none
  else
    let Known := remGetLowBits LHS RHS
    if RHS.isConstant && isPowerOf2 RHS.One then
      some { Known with Zero := Known.Zero ||| ~~~(RHS.One - 1) }
    else
      let Leaders := max LHS.countMinLeadingZeros RHS.countMinLeadingZeros
      some { Known with Zero := Known.Zero ||| getHighBitsSet w Leaders }

def srem (LHS RHS : KnownBits w) : Option (KnownBits w) :=
  if LHS.hasConflict || RHS.hasConflict then none
  else
    let Known := remGetLowBits LHS RHS
    if RHS.isConstant && isPowerOf2 RHS.One then
      let LowBits := RHS.One - 1
      let Known := if LHS.isNonNegative || LowBits &&& ~~~LHS.Zero == 0 then
        { Known with Zero := Known.Zero ||| ~~~LowBits } else Known
      some (if LHS.isNegative && LowBits &&& LHS.One != 0 then
        { Known with One := Known.One ||| ~~~LowBits } else Known)
    else some { Known with Zero := Known.Zero ||| getHighBitsSet w LHS.countMinLeadingZeros }

theorem countP_add_of_disjoint {α : Type} {p q : α → Bool} {xs : List α}
    (h : ∀ a ∈ xs, p a = true → q a = false) :
    xs.countP p + xs.countP q = xs.countP fun a => p a || q a := by
  induction xs with
  | nil => rfl
  | cons a xs ih =>
    have hrest := ih fun b hb => h b (List.mem_cons_of_mem a hb)
    have ha := h a List.mem_cons_self
    simp only [List.countP_cons]
    cases hp : p a
    · cases hq : q a <;> simp <;> omega
    · rw [ha hp]
      simp
      omega

variable {K : KnownBits w} {V v : BitVec w} {i k : Nat}

theorem eq_of_isConstant (h : v ∈ K) (hconst : K.isConstant = true) : v = K.One := by
  have hconf := hasConflict_eq_false_iff.mp (not_conflict_of_mem h)
  have hcount : (List.range w).countP (fun i => K.One.getLsbD i || K.Zero.getLsbD i) =
      (List.range w).length := by
    rw [← countP_add_of_disjoint fun i _ => hconf i, List.length_range, Nat.add_comm]
    rw [isConstant, beq_iff_eq] at hconst
    exact hconst
  have hall := List.countP_eq_length.mp hcount
  apply BitVec.eq_of_getLsbD_eq
  intro i hi
  refine getLsbD_of_known h ?_
  rw [Bool.or_comm]
  exact hall i (List.mem_range.mpr hi)

theorem isPowerOf2_spec (h : isPowerOf2 V = true) : ∃ k < w, V.toNat = 2 ^ k := by
  rw [isPowerOf2, Bool.and_eq_true, bne_iff_ne, beq_iff_eq] at h
  have hpos := toNat_ne_zero.mp h.1
  have hw : 0 < w := by
    rcases Nat.eq_zero_or_pos w with rfl | hw
    · rw [BitVec.eq_nil V] at h
      exact absurd rfl h.1
    · exact hw
  have hone : (1 : BitVec w).toNat ≤ V.toNat := by rw [toNat_one hw]; exact hpos
  have hpred : (V - 1).toNat = V.toNat - 1 := by rw [toNat_sub_of_le hone, toNat_one hw]
  have hand := congrArg BitVec.toNat h.2
  rw [BitVec.toNat_and, hpred, BitVec.ofNat_eq_ofNat, BitVec.toNat_zero] at hand
  obtain ⟨k, hk⟩ := (BitRuns.succ_and_eq_zero_iff (V.toNat - 1)).mp
    (by rw [Nat.sub_add_cancel hpos]; exact hand)
  have hkpos := Nat.two_pow_pos k
  have hV : V.toNat = 2 ^ k := by omega
  exact ⟨k, (Nat.pow_lt_pow_iff_right (by decide)).mp (hV ▸ V.isLt), hV⟩

theorem getLsbD_pred_two_pow (hk : k < w) (hV : V.toNat = 2 ^ k) :
    (V - 1).getLsbD i = decide (i < k) := by
  have hw : 0 < w := Nat.zero_lt_of_lt hk
  have hpos := Nat.two_pow_pos k
  have hone : (1 : BitVec w).toNat ≤ V.toNat := by rw [toNat_one hw, hV]; exact hpos
  rw [← BitVec.testBit_toNat, toNat_sub_of_le hone, toNat_one hw, hV, Nat.testBit_two_pow_sub_one]

theorem getLsbD_not_pred_two_pow (hk : k < w) (hV : V.toNat = 2 ^ k) :
    (~~~(V - 1)).getLsbD i = (decide (i < w) && decide (k ≤ i)) := by
  rw [BitVec.getLsbD_not, getLsbD_pred_two_pow hk hV, ← decide_not]
  simp only [Nat.not_lt]

section Remainders

variable {LHS RHS : KnownBits w} {l r : BitVec w}

theorem mem_remGetLowBits (hl : l ∈ LHS)
    (hlow : ∀ i < RHS.countMinTrailingZeros, v.getLsbD i = l.getLsbD i) :
    v ∈ remGetLowBits LHS RHS := by
  unfold remGetLowBits
  split_ifs
  · rw [mem_iff] at hl ⊢
    intro i
    simp only [BitVec.getLsbD_and, getLsbD_getLowBitsSet, Bool.and_eq_true, decide_eq_true_iff]
    refine ⟨fun h => ?_, fun h => ?_⟩
    · rw [hlow i h.2.2]
      exact (hl i).1 h.1
    · rw [hlow i h.2.2]
      exact (hl i).2 h.1
  · exact mem_unknown v

theorem lt_of_countMinLeadingZeros (h : v ∈ K) : v.toNat < 2 ^ (w - K.countMinLeadingZeros) := by
  have hle : K.countMinLeadingZeros ≤ w := countl_zero_le _
  rw [← le_countl_zero_iff hle, le_countl_zero_iff_bits hle]
  intro i hi
  by_cases hiw : i < w
  · exact (mem_iff.mp h i).1 ((le_countl_one_iff_bits hle).mp (Nat.le_refl _) i hi hiw)
  · exact BitVec.getLsbD_of_ge _ _ (Nat.not_lt.mp hiw)

theorem setHighZeros_mem {n : Nat} (h : v ∈ K) (hlt : v.toNat < 2 ^ (w - n)) :
    v ∈ ({ K with Zero := K.Zero ||| getHighBitsSet w n } : KnownBits w) := by
  rw [mem_iff] at h ⊢
  intro i
  refine ⟨fun hzero => ?_, (h i).2⟩
  rw [BitVec.getLsbD_or, Bool.or_eq_true, getLsbD_getHighBitsSet, Bool.and_eq_true,
    decide_eq_true_iff, decide_eq_true_iff] at hzero
  rcases hzero with hzero | ⟨-, hi⟩
  · exact (h i).1 hzero
  · rw [← BitVec.testBit_toNat]
    exact Nat.testBit_lt_two_pow (Nat.lt_of_lt_of_le hlt (Nat.pow_le_pow_right (by decide) hi))

theorem setHighZeros_of_two_pow (hk : k < w) (hV : V.toNat = 2 ^ k) (h : v ∈ K)
    (hlt : v.toNat < 2 ^ k) : v ∈ ({ K with Zero := K.Zero ||| ~~~(V - 1) } : KnownBits w) := by
  rw [mem_iff] at h ⊢
  intro i
  refine ⟨fun hzero => ?_, (h i).2⟩
  rw [BitVec.getLsbD_or, Bool.or_eq_true, getLsbD_not_pred_two_pow hk hV, Bool.and_eq_true,
    decide_eq_true_iff, decide_eq_true_iff] at hzero
  rcases hzero with hzero | ⟨-, hi⟩
  · exact (h i).1 hzero
  · rw [← BitVec.testBit_toNat]
    exact Nat.testBit_lt_two_pow (Nat.lt_of_lt_of_le hlt (Nat.pow_le_pow_right (by decide) hi))

theorem setHighOnes_of_two_pow (hk : k < w) (hV : V.toNat = 2 ^ k) (h : v ∈ K)
    (hge : 2 ^ w ≤ v.toNat + 2 ^ k) :
    v ∈ ({ K with One := K.One ||| ~~~(V - 1) } : KnownBits w) := by
  have hbits := (le_countl_one_iff_bits (v := v) (Nat.sub_le w k)).mp
    ((le_countl_one_iff (Nat.sub_le w k)).mpr (by rwa [Nat.sub_sub_self (Nat.le_of_lt hk)]))
  rw [mem_iff] at h ⊢
  intro i
  refine ⟨(h i).1, fun hone => ?_⟩
  rw [BitVec.getLsbD_or, Bool.or_eq_true, getLsbD_not_pred_two_pow hk hV, Bool.and_eq_true,
    decide_eq_true_iff, decide_eq_true_iff] at hone
  rcases hone with hone | ⟨hiw, hi⟩
  · exact (h i).2 hone
  · exact hbits i (by omega) hiw

theorem umod_low_bits (hr : r ∈ RHS) (l : BitVec w) (hi : i < RHS.countMinTrailingZeros) :
    (l % r).getLsbD i = l.getLsbD i := by
  refine mod_eq_iff_bits.mp ?_ i hi
  rw [BitVec.toNat_umod, Nat.mod_mod_of_dvd _ (dvd_of_mem hr)]

theorem urem_spec (hL : LHS.hasConflict = false) (hR : RHS.hasConflict = false) :
    ∃ K, urem LHS RHS = some K ∧ ∀ l ∈ LHS, ∀ r ∈ RHS, r ≠ 0 → l % r ∈ K := by
  simp only [urem, hL, hR, Bool.or_self, Bool.false_eq_true, if_false]
  have hlow : ∀ l ∈ LHS, ∀ r ∈ RHS, l % r ∈ remGetLowBits LHS RHS := fun l hl r hr =>
    mem_remGetLowBits hl fun i hi => umod_low_bits hr l hi
  split_ifs with hconst
  · rw [Bool.and_eq_true] at hconst
    obtain ⟨k, hk, hV⟩ := isPowerOf2_spec hconst.2
    refine ⟨_, rfl, fun l hl r hr _ => setHighZeros_of_two_pow hk hV (hlow l hl r hr) ?_⟩
    rw [eq_of_isConstant hr hconst.1, BitVec.toNat_umod, hV]
    exact Nat.mod_lt _ (Nat.two_pow_pos k)
  · refine ⟨_, rfl, fun l hl r hr hne => setHighZeros_mem (hlow l hl r hr) ?_⟩
    have hleft : (l % r).toNat < 2 ^ (w - LHS.countMinLeadingZeros) := by
      rw [BitVec.toNat_umod]
      exact Nat.mod_lt_of_lt (lt_of_countMinLeadingZeros hl)
    have hright : (l % r).toNat < 2 ^ (w - RHS.countMinLeadingZeros) := by
      rw [BitVec.toNat_umod]
      exact Nat.lt_trans (Nat.mod_lt _ (toNat_ne_zero.mp hne)) (lt_of_countMinLeadingZeros hr)
    rcases Nat.le_total LHS.countMinLeadingZeros RHS.countMinLeadingZeros with hle | hle
    · rwa [Nat.max_eq_right hle]
    · rwa [Nat.max_eq_left hle]

/-! ### Signed remainders -/

theorem srem_low_bits (hr : r ∈ RHS) (l : BitVec w) (hi : i < RHS.countMinTrailingZeros) :
    (l.srem r).getLsbD i = l.getLsbD i := by
  have hle : RHS.countMinTrailingZeros ≤ w := countr_zero_le _
  refine bits_eq_of_dvd_toInt_sub hle ?_ hi
  rw [BitVec.toInt_srem]
  exact ((two_pow_dvd_toInt hle).mpr (dvd_of_mem hr)).trans Int.dvd_tmod_sub_self

theorem natAbs_toInt_of_two_pow (hk : k < w) (hV : V.toNat = 2 ^ k) : V.toInt.natAbs = 2 ^ k := by
  have hcases := toInt_sign_cases V
  have hpow : 2 ^ (k + 1) ≤ 2 ^ w := Nat.pow_le_pow_right (by decide) hk
  omega

theorem natAbs_srem (l r : BitVec w) :
    (l.srem r).toInt.natAbs = l.toInt.natAbs % r.toInt.natAbs := by
  rw [BitVec.toInt_srem, Int.natAbs_tmod]

theorem toNat_srem_of_nonneg (h : 0 ≤ l.toInt) :
    (l.srem r).toNat = l.toInt.natAbs % r.toInt.natAbs := by
  have hnonneg : 0 ≤ (l.srem r).toInt := by
    rw [BitVec.toInt_srem]
    exact Int.tmod_nonneg _ h
  have hcases := toInt_sign_cases (l.srem r)
  have habs := natAbs_srem l r
  omega

theorem low_bits_dvd {l : BitVec w} (hk : k < w) (hV : V.toNat = 2 ^ k) :
    (V - 1) &&& l = 0 ↔ (2 : Int) ^ k ∣ l.toInt := by
  rw [two_pow_dvd_toInt (Nat.le_of_lt hk), dvd_iff_bits, BitVec.and_comm, and_eq_zero_iff]
  refine forall_congr' fun i => ?_
  rw [getLsbD_pred_two_pow hk hV, decide_eq_true_iff]

theorem toNat_srem_of_neg (hk : k < w) (hr : r.toNat = 2 ^ k) (hl : l.toInt < 0)
    (hdvd : ¬(2 : Int) ^ k ∣ l.toInt) : 2 ^ w ≤ (l.srem r).toNat + 2 ^ k := by
  have habs := natAbs_srem l r
  have hr_abs := natAbs_toInt_of_two_pow hk hr
  rw [hr_abs] at habs
  have hne : l.toInt.natAbs % 2 ^ k ≠ 0 := by
    intro h
    apply hdvd
    have hnat := Int.natCast_dvd_natCast.mpr (Nat.dvd_of_mod_eq_zero h)
    exact Int.dvd_natAbs.mp hnat
  have hnonpos : (l.srem r).toInt ≤ 0 := by
    have hneg := Int.tmod_nonneg r.toInt (show 0 ≤ -l.toInt by omega)
    rw [Int.neg_tmod] at hneg
    rw [BitVec.toInt_srem]
    omega
  have hcases := toInt_sign_cases (l.srem r)
  omega

theorem and_eq_zero_of_below {x y z : BitVec w} (h : Below y z) (hz : x &&& z = 0) :
    x &&& y = 0 := by
  rw [and_eq_zero_iff] at hz ⊢
  exact fun i hi => hz i (h i hi)

theorem srem_setZeros (hk : k < w) (hr : r.toNat = 2 ^ k) (hl : l ∈ LHS) (hmem : l.srem r ∈ K) :
    l.srem r ∈ if LHS.isNonNegative || (r - 1) &&& ~~~LHS.Zero == 0 then
      { K with Zero := K.Zero ||| ~~~(r - 1) } else K := by
  split_ifs with hz
  · refine setHighZeros_of_two_pow hk hr hmem ?_
    have hr_abs := natAbs_toInt_of_two_pow hk hr
    rw [Bool.or_eq_true, beq_iff_eq] at hz
    rcases hz with hz | hz
    · rw [toNat_srem_of_nonneg (toInt_nonneg_of_isNonNegative hl hz), hr_abs]
      exact Nat.mod_lt _ (Nat.two_pow_pos k)
    · have hdvd := (low_bits_dvd hk hr).mp (and_eq_zero_of_below (mem_iff_below.mp hl).2 hz)
      have hnat : 2 ^ k ∣ l.toInt.natAbs := by
        have h := Int.natAbs_dvd_natAbs.mpr hdvd
        exact h
      have habs := natAbs_srem l r
      rw [hr_abs, Nat.mod_eq_zero_of_dvd hnat] at habs
      have hcases := toInt_sign_cases (l.srem r)
      omega
  · exact hmem

theorem srem_setOnes (hk : k < w) (hr : r.toNat = 2 ^ k) (hl : l ∈ LHS) (hmem : l.srem r ∈ K) :
    l.srem r ∈ if LHS.isNegative && (r - 1) &&& LHS.One != 0 then
      { K with One := K.One ||| ~~~(r - 1) } else K := by
  split_ifs with hn
  · rw [Bool.and_eq_true, bne_iff_ne] at hn
    refine setHighOnes_of_two_pow hk hr hmem
      (toNat_srem_of_neg hk hr (toInt_neg_of_isNegative hl hn.1) fun hdvd => hn.2 ?_)
    exact and_eq_zero_of_below (mem_iff_below.mp hl).1 ((low_bits_dvd hk hr).mpr hdvd)
  · exact hmem

theorem isNonNegative_of_leading (h : 0 < K.countMinLeadingZeros) : K.isNonNegative = true := by
  have hle : K.countMinLeadingZeros ≤ w := countl_zero_le _
  rw [isNonNegative, BitVec.msb_eq_getLsbD_last]
  exact (le_countl_one_iff_bits hle).mp (Nat.le_refl _) (w - 1) (by omega) (by omega)

theorem srem_spec (hL : LHS.hasConflict = false) (hR : RHS.hasConflict = false) :
    ∃ K, srem LHS RHS = some K ∧ ∀ l ∈ LHS, ∀ r ∈ RHS, r ≠ 0 → l.srem r ∈ K := by
  simp only [srem, hL, hR, Bool.or_self, Bool.false_eq_true, if_false]
  have hlow : ∀ l ∈ LHS, ∀ r ∈ RHS, l.srem r ∈ remGetLowBits LHS RHS := fun l hl r hr =>
    mem_remGetLowBits hl fun i hi => srem_low_bits hr l hi
  by_cases hconst : (RHS.isConstant && isPowerOf2 RHS.One) = true
  · rw [if_pos hconst]
    rw [Bool.and_eq_true] at hconst
    obtain ⟨k, hk, hV⟩ := isPowerOf2_spec hconst.2
    refine ⟨_, rfl, fun l hl r hr _ => ?_⟩
    obtain rfl := eq_of_isConstant hr hconst.1
    exact srem_setOnes hk hV hl (srem_setZeros hk hV hl (hlow l hl _ hr))
  · rw [if_neg hconst]
    refine ⟨_, rfl, fun l hl r hr hne => setHighZeros_mem (hlow l hl r hr) ?_⟩
    rcases Nat.eq_zero_or_pos LHS.countMinLeadingZeros with hzero | hpos
    · rw [hzero, Nat.sub_zero]
      exact BitVec.isLt _
    · have hnonneg := toInt_nonneg_of_isNonNegative hl (isNonNegative_of_leading hpos)
      rw [toNat_srem_of_nonneg hnonneg]
      have hlt := lt_of_countMinLeadingZeros hl
      have hle := Nat.mod_le l.toInt.natAbs r.toInt.natAbs
      have hcases := toInt_sign_cases l
      omega

end Remainders

/-- The operation has a result, which holds the value of every pair that is meant; so it has no
conflict when there is such a pair. -/
def SoundFor (LHS RHS : KnownBits w) (meant : BitVec w → BitVec w → Prop)
    (f : BitVec w → BitVec w → BitVec w) (res : Option (KnownBits w)) : Prop :=
  ∃ K, res = some K ∧ (∀ l ∈ LHS, ∀ r ∈ RHS, meant l r → f l r ∈ K) ∧
    ((∃ l ∈ LHS, ∃ r ∈ RHS, meant l r) → K.hasConflict = false)

theorem SoundFor.of_mem {LHS RHS : KnownBits w} {meant : BitVec w → BitVec w → Prop}
    {f : BitVec w → BitVec w → BitVec w} {res : Option (KnownBits w)}
    (h : ∃ K, res = some K ∧ ∀ l ∈ LHS, ∀ r ∈ RHS, meant l r → f l r ∈ K) :
    SoundFor LHS RHS meant f res := by
  obtain ⟨K, heq, hmem⟩ := h
  refine ⟨K, heq, hmem, ?_⟩
  rintro ⟨l, hl, r, hr, hlr⟩
  exact not_conflict_of_mem (hmem l hl r hr hlr)

theorem products_sound (hw : 0 < w) (LHS RHS : KnownBits w) (hL : LHS.hasConflict = false)
    (hR : RHS.hasConflict = false) :
    SoundFor LHS RHS (fun _ _ => True) (fun l r => l * r) (mul LHS RHS false) ∧
    SoundFor LHS LHS (fun l r => l = r) (fun l r => l * r) (mul LHS LHS true) ∧
    SoundFor LHS RHS (fun _ _ => True)
      (fun l r => BitVec.ofInt w (l.toInt * r.toInt / 2 ^ w)) (mulhs LHS RHS) ∧
    SoundFor LHS RHS (fun _ _ => True)
      (fun l r => BitVec.ofNat w (l.toNat * r.toNat / 2 ^ w)) (mulhu LHS RHS) := by
  obtain ⟨K, heq, hmem⟩ := mul_self_spec hw hL
  obtain ⟨Kh, hheq, hhmem⟩ := mulhs_spec hw hL hR
  obtain ⟨Ku, hueq, humem⟩ := mulhu_spec hw hL hR
  exact ⟨SoundFor.of_mem ⟨_, mul_eq hL hR, fun l hl r hr _ => mem_mulOf hw hl hr⟩,
    SoundFor.of_mem ⟨K, heq, fun l hl r _ hlr => hlr ▸ hmem l hl⟩,
    SoundFor.of_mem ⟨Kh, hheq, fun l hl r hr _ => hhmem l hl r hr⟩,
    SoundFor.of_mem ⟨Ku, hueq, fun l hl r hr _ => humem l hl r hr⟩⟩

theorem quotients_sound (hw : 0 < w) (LHS RHS : KnownBits w) (hL : LHS.hasConflict = false)
    (hR : RHS.hasConflict = false) :
    (∀ Exact, SoundFor LHS RHS (fun l r => r ≠ 0 ∧ (Exact = true → l % r = 0))
      (fun l r => l / r) (udiv LHS RHS Exact)) ∧
    (∀ Exact, SoundFor LHS RHS
      (fun l r => r ≠ 0 ∧ ¬(l = BitVec.intMin w ∧ r = BitVec.allOnes w) ∧
        (Exact = true → l.srem r = 0))
      BitVec.sdiv (sdiv LHS RHS Exact)) ∧
    SoundFor LHS RHS (fun _ r => r ≠ 0) (fun l r => l % r) (urem LHS RHS) ∧
    SoundFor LHS RHS (fun _ r => r ≠ 0) BitVec.srem (srem LHS RHS) := by
  refine ⟨fun Exact => ?_, fun Exact => ?_, SoundFor.of_mem (urem_spec hL hR),
    SoundFor.of_mem (srem_spec hL hR)⟩
  · obtain ⟨K, heq, -, hmem⟩ := udiv_spec Exact hL hR
    exact SoundFor.of_mem ⟨K, heq, fun l hl r hr h => hmem l hl r hr h.1 h.2⟩
  · obtain ⟨K, heq, -, hmem⟩ := sdiv_spec hw Exact hL hR
    exact SoundFor.of_mem ⟨K, heq, fun l hl r hr h => hmem l hl r hr h.1 h.2.1 h.2.2⟩

end SmlnjLlvm.KnownBits
