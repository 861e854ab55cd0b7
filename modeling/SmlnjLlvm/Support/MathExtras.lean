import SmlnjLlvm.Library.BitRuns

/-!
# Bit counts and masks

Counts of zeros and ones at the ends of a word, and the tests for words whose
ones are one block.
-/

namespace SmlnjLlvm.Support

open BitRuns Words

variable {w : Nat}

/-! ## Counts -/

/-- The width for zero. -/
def countr_zero (v : BitVec w) : Nat := v.ctz.toNat

def countl_zero (v : BitVec w) : Nat := v.clz.toNat

def countr_one (v : BitVec w) : Nat := countr_zero (~~~v)

def countl_one (v : BitVec w) : Nat := countl_zero (~~~v)

variable {a b v : BitVec w} {k n s : Nat}

theorem countr_zero_eq (hlow : ∀ i < n, v.getLsbD i = false) (hbit : v.getLsbD n = true) :
    countr_zero v = n := by
  have hne : v ≠ 0#w := by
    rintro rfl
    rw [BitVec.getLsbD_zero] at hbit
    cases hbit
  unfold countr_zero
  rcases Nat.lt_trichotomy v.ctz.toNat n with hlt | heq | hgt
  · have htrue := BitVec.getLsbD_true_ctz_of_ne_zero hne
    rw [hlow _ hlt] at htrue
    cases htrue
  · exact heq
  · rw [BitVec.getLsbD_false_of_lt_ctz hgt] at hbit
    cases hbit

theorem countr_one_eq (hn : n < w) (hlow : ∀ i < n, v.getLsbD i = true)
    (hbit : v.getLsbD n = false) : countr_one v = n := by
  apply countr_zero_eq
  · intro i hi
    rw [BitVec.getLsbD_not, hlow i hi, Bool.not_true, Bool.and_false]
  · rw [BitVec.getLsbD_not, hbit, decide_eq_true hn]
    rfl

theorem countl_zero_le (v : BitVec w) : countl_zero v ≤ w := by
  have hle := BitVec.le_def.mp (BitVec.clz_le (x := v))
  have hself : w < 2 ^ w := Nat.lt_two_pow_self
  rw [BitVec.natCast_eq_ofNat, BitVec.toNat_ofNat, Nat.mod_eq_of_lt hself] at hle
  exact hle

theorem countl_zero_eq (hlo : 2 ^ n ≤ v.toNat) (hhi : v.toNat < 2 ^ (n + 1)) :
    countl_zero v = w - 1 - n := by
  have hpos : 0 < w := by
    rcases Nat.eq_zero_or_pos w with rfl | hw
    · have hlt := v.isLt
      omega
    · exact hw
  have hne : v ≠ 0#w := by
    rintro rfl
    rw [BitVec.toNat_ofNat, Nat.zero_mod] at hlo
    omega
  have hle := countl_zero_le v
  unfold countl_zero at hle ⊢
  have hupper := Nat.lt_of_le_of_lt hlo BitVec.toNat_lt_two_pow_sub_clz
  have hlower := Nat.lt_of_le_of_lt (BitVec.two_pow_sub_clz_le_toNat_of_ne_zero hpos hne) hhi
  have h1 := (Nat.pow_lt_pow_iff_right (by decide : 1 < 2)).mp hupper
  have h2 := (Nat.pow_lt_pow_iff_right (by decide : 1 < 2)).mp hlower
  omega

theorem countr_zero_spec (hv : v ≠ 0) :
    v.getLsbD (countr_zero v) = true ∧ ∀ i < countr_zero v, v.getLsbD i = false :=
  ⟨BitVec.getLsbD_true_ctz_of_ne_zero hv, fun _ hi => BitVec.getLsbD_false_of_lt_ctz hi⟩

theorem countr_zero_lt (hv : v ≠ 0) : countr_zero v < w := by
  by_contra hle
  have hbit := (countr_zero_spec hv).1
  rw [BitVec.getLsbD_of_ge _ _ (Nat.not_lt.mp hle)] at hbit
  cases hbit

theorem countl_zero_spec (hw : 0 < w) (hv : v ≠ 0) :
    v.getLsbD (w - 1 - countl_zero v) = true ∧
      ∀ i, w - 1 - countl_zero v < i → v.getLsbD i = false := by
  refine ⟨BitVec.getLsbD_true_clz_of_ne_zero hw hv, ?_⟩
  intro i hi
  rw [← BitVec.testBit_toNat]
  apply Nat.testBit_lt_two_pow
  apply Nat.lt_of_lt_of_le BitVec.toNat_lt_two_pow_sub_clz
  apply Nat.pow_le_pow_right (by decide)
  unfold countl_zero at hi
  omega

theorem countl_zero_lt (hv : v ≠ 0) : countl_zero v < w := by
  by_contra hge
  apply hv
  have hlt : v.toNat < 2 ^ (w - countl_zero v) := BitVec.toNat_lt_two_pow_sub_clz
  rw [Nat.sub_eq_zero_of_le (Nat.not_lt.mp hge), Nat.pow_zero] at hlt
  exact BitVec.eq_of_toNat_eq ((Nat.lt_one_iff.mp hlt).trans BitVec.toNat_zero.symm)

theorem countl_zero_zero : countl_zero (0 : BitVec w) = w := by
  have hbit := (BitVec.clz_lt_iff_ne_zero (x := (0 : BitVec w))).not.mpr (fun h => h rfl)
  have hself : w < 2 ^ w := Nat.lt_two_pow_self
  rw [BitVec.lt_def, BitVec.natCast_eq_ofNat, BitVec.toNat_ofNat, Nat.mod_eq_of_lt hself] at hbit
  exact Nat.le_antisymm (countl_zero_le _) (Nat.not_lt.mp hbit)

theorem le_countl_zero_iff (hs : s ≤ w) : s ≤ countl_zero v ↔ v.toNat < 2 ^ (w - s) := by
  constructor
  · intro hle
    have hlt : v.toNat < 2 ^ (w - countl_zero v) := BitVec.toNat_lt_two_pow_sub_clz
    exact Nat.lt_of_lt_of_le hlt (Nat.pow_le_pow_right (by decide) (by omega))
  · intro hlt
    by_contra hfew
    have hw : 0 < w := by omega
    have hne : v ≠ 0 := by
      rintro rfl
      have hall := countl_zero_zero (w := w)
      omega
    have hge : 2 ^ (w - 1 - countl_zero v) ≤ v.toNat :=
      BitVec.two_pow_sub_clz_le_toNat_of_ne_zero hw hne
    have hpow : 2 ^ (w - s) ≤ 2 ^ (w - 1 - countl_zero v) :=
      Nat.pow_le_pow_right (by decide) (by omega)
    omega

theorem le_countl_one_iff (hs : s ≤ w) : s ≤ countl_one v ↔ 2 ^ w ≤ v.toNat + 2 ^ (w - s) := by
  rw [countl_one, le_countl_zero_iff hs, BitVec.toNat_not]
  omega

theorem le_countl_zero_iff_bits (hs : s ≤ w) :
    s ≤ countl_zero v ↔ ∀ i, w - s ≤ i → v.getLsbD i = false := by
  rw [le_countl_zero_iff hs]
  constructor
  · intro hlt i hi
    rw [← BitVec.testBit_toNat]
    exact Nat.testBit_lt_two_pow (Nat.lt_of_lt_of_le hlt (Nat.pow_le_pow_right (by decide) hi))
  · intro hbits
    refine Nat.lt_pow_two_of_testBit _ fun i hi => ?_
    rw [BitVec.testBit_toNat]
    exact hbits i hi

theorem le_countl_one_iff_bits (hs : s ≤ w) :
    s ≤ countl_one v ↔ ∀ i, w - s ≤ i → i < w → v.getLsbD i = true := by
  rw [countl_one, le_countl_zero_iff_bits hs]
  refine forall₂_congr fun i _ => ?_
  rw [BitVec.getLsbD_not, Bool.and_eq_false_iff, decide_eq_false_iff_not, Bool.not_eq_false',
    ← imp_iff_not_or]

theorem countr_zero_zero : countr_zero (0 : BitVec w) = w := by
  have hreverse : (0 : BitVec w).reverse = 0 := by
    apply BitVec.eq_of_getLsbD_eq
    intro i _
    simp [BitVec.getLsbD_reverse]
  rw [countr_zero, BitVec.ctz_eq_reverse_clz, hreverse]
  exact countl_zero_zero

theorem le_countr_zero_iff (hs : s ≤ w) : s ≤ countr_zero v ↔ ∀ i < s, v.getLsbD i = false := by
  by_cases hv : v = 0
  · rw [hv, countr_zero_zero]
    exact ⟨fun _ _ _ => BitVec.getLsbD_zero, fun _ => hs⟩
  · obtain ⟨hbit, hlow⟩ := countr_zero_spec hv
    refine ⟨fun hle i hi => hlow i (Nat.lt_of_lt_of_le hi hle), fun hbits => ?_⟩
    by_contra hlt
    exact Bool.false_ne_true ((hbits _ (Nat.not_le.mp hlt)).symm.trans hbit)

theorem le_countr_one_iff (hs : s ≤ w) : s ≤ countr_one v ↔ ∀ i < s, v.getLsbD i = true := by
  rw [countr_one, le_countr_zero_iff hs]
  refine forall₂_congr fun i hi => ?_
  rw [BitVec.getLsbD_not, decide_eq_true (Nat.lt_of_lt_of_le hi hs), Bool.true_and,
    Bool.not_eq_false']

theorem countr_zero_le (v : BitVec w) : countr_zero v ≤ w := by
  by_cases hv : v = 0
  · rw [hv, countr_zero_zero]
  · exact Nat.le_of_lt (countr_zero_lt hv)

theorem countl_one_eq (hn : n < w) (hhigh : ∀ i, n < i → i < w → v.getLsbD i = true)
    (hbit : v.getLsbD n = false) : countl_one v = w - 1 - n := by
  have htrue : (~~~v).getLsbD n = true := by
    rw [BitVec.getLsbD_not, hbit, decide_eq_true hn]
    rfl
  refine countl_zero_eq ?_ ?_
  · rw [← BitVec.testBit_toNat] at htrue
    exact Nat.ge_two_pow_of_testBit htrue
  · refine Nat.lt_pow_two_of_testBit _ fun i hi => ?_
    rw [BitVec.testBit_toNat, BitVec.getLsbD_not]
    by_cases hw : i < w
    · rw [hhigh i hi hw, Bool.not_true, Bool.and_false]
    · rw [decide_eq_false hw, Bool.false_and]

theorem div_eq_of_le_countl_zero_xor (hs : s ≤ countl_zero (a ^^^ b)) :
    a.toNat / 2 ^ (w - s) = b.toNat / 2 ^ (w - s) := by
  have hbits := (le_countl_zero_iff_bits (Nat.le_trans hs (countl_zero_le _))).mp hs
  apply Nat.eq_of_testBit_eq
  intro i
  rw [Nat.testBit_div_two_pow, Nat.testBit_div_two_pow, BitVec.testBit_toNat, BitVec.testBit_toNat]
  have hbit := hbits (i + (w - s)) (Nat.le_add_left _ _)
  rwa [BitVec.getLsbD_xor, bne_eq_false_iff_eq] at hbit

theorem div_eq_of_between {x : BitVec w} (hs : s ≤ countl_zero (a ^^^ b))
    (hlo : a.toNat ≤ x.toNat) (hhi : x.toNat ≤ b.toNat) :
    x.toNat / 2 ^ (w - s) = a.toNat / 2 ^ (w - s) := by
  have heq := div_eq_of_le_countl_zero_xor hs
  have hle := Nat.div_le_div_right (c := 2 ^ (w - s)) hlo
  have hge := Nat.div_le_div_right (c := 2 ^ (w - s)) hhi
  omega

theorem countl_zero_anti (h : a.toNat ≤ b.toNat) : countl_zero b ≤ countl_zero a := by
  have hb := (le_countl_zero_iff (countl_zero_le b)).mp (Nat.le_refl _)
  exact (le_countl_zero_iff (countl_zero_le b)).mpr (Nat.lt_of_le_of_lt h hb)

theorem countl_zero_xor_lt (hne : a ≠ b) : countl_zero (a ^^^ b) < w := by
  apply countl_zero_lt
  intro h
  exact hne (BitVec.xor_eq_zero_iff.mp h)

def isPowerOf2_32 (Value : Nat) : Bool := Value != 0 && Value &&& (Value - 1) == 0

def Log2_32 (Value : Nat) : Nat := Nat.log2 Value

theorem eq_two_pow_of_isPowerOf2_32 {Value : Nat} (h : isPowerOf2_32 Value = true) :
    Value = 2 ^ Log2_32 Value := by
  rw [isPowerOf2_32, Bool.and_eq_true, bne_iff_ne, beq_iff_eq] at h
  obtain ⟨u, rfl⟩ := Nat.exists_eq_succ_of_ne_zero h.1
  obtain ⟨n, hn⟩ := (succ_and_eq_zero_iff u).mp h.2
  have hpos : 0 < 2 ^ n := Nat.two_pow_pos n
  have heq : u + 1 = 2 ^ n := by omega
  rw [Nat.succ_eq_add_one, heq, Log2_32, Nat.log2_two_pow]

/-- Rotation by an amount that is not negative. -/
def rotl (V : BitVec w) (R : Nat) : BitVec w :=
  if R % w = 0 then V else V <<< (R % w) ||| V >>> (w - R % w)

def rotr (V : BitVec w) (R : Nat) : BitVec w :=
  if R % w = 0 then V else V >>> (R % w) ||| V <<< (w - R % w)

def popcount (v : BitVec w) : Nat := (List.range w).countP fun i => v.getLsbD i

theorem getLsbD_rotl (V : BitVec w) (R : Nat) {i : Nat} (hi : i < w) :
    (rotl V R).getLsbD i = V.getLsbD ((i + (w - R % w)) % w) := by
  unfold rotl
  by_cases hzero : R % w = 0
  · rw [if_pos hzero, hzero, Nat.sub_zero, Nat.add_mod_right, Nat.mod_eq_of_lt hi]
  · rw [if_neg hzero, BitVec.getLsbD_or, BitVec.getLsbD_shiftLeft, BitVec.getLsbD_ushiftRight,
      decide_eq_true hi, Bool.true_and]
    by_cases hlt : i < R % w
    · rw [decide_eq_true hlt, Nat.mod_eq_of_lt (a := i + (w - R % w)) (by omega), Nat.add_comm i]
      rfl
    · have hsum : i + (w - R % w) = i - R % w + w := by omega
      rw [decide_eq_false hlt, hsum, Nat.add_mod_right, Nat.mod_eq_of_lt (a := i - R % w) (by omega),
        BitVec.getLsbD_of_ge V (w - R % w + i) (by omega), Bool.or_false]
      rfl

theorem getLsbD_rotr (V : BitVec w) (R : Nat) {i : Nat} (hi : i < w) :
    (rotr V R).getLsbD i = V.getLsbD ((i + R) % w) := by
  have hR := Nat.mod_lt R (Nat.lt_of_le_of_lt (Nat.zero_le i) hi)
  rw [← Nat.add_mod_mod]
  unfold rotr
  by_cases hzero : R % w = 0
  · rw [if_pos hzero, hzero, Nat.add_zero, Nat.mod_eq_of_lt hi]
  · rw [if_neg hzero, BitVec.getLsbD_or, BitVec.getLsbD_shiftLeft, BitVec.getLsbD_ushiftRight,
      decide_eq_true hi, Bool.true_and]
    by_cases hlt : i < w - R % w
    · rw [decide_eq_true hlt, Nat.mod_eq_of_lt (a := i + R % w) (by omega), Nat.add_comm i]
      exact Bool.or_false _
    · have hsum : i + R % w = i - (w - R % w) + w := by omega
      rw [decide_eq_false hlt, hsum, Nat.add_mod_right, Nat.mod_eq_of_lt (a := i - (w - R % w)) (by omega),
        BitVec.getLsbD_of_ge V (R % w + i) (by omega), Bool.false_or]
      rfl

theorem rotl_rotr (V : BitVec w) (R : Nat) : rotl (rotr V R) R = V := by
  apply BitVec.eq_of_getLsbD_eq
  intro i hi
  have hpos := Nat.lt_of_le_of_lt (Nat.zero_le i) hi
  have hR := Nat.mod_lt R hpos
  rw [getLsbD_rotl _ _ hi, getLsbD_rotr _ _ (Nat.mod_lt _ hpos), Nat.mod_add_mod,
    ← Nat.add_mod_mod _ R]
  have hsum : i + (w - R % w) + R % w = i + w := by omega
  rw [hsum, Nat.add_mod_right, Nat.mod_eq_of_lt hi]

theorem rotr_rotl (V : BitVec w) (R : Nat) : rotr (rotl V R) R = V := by
  apply BitVec.eq_of_getLsbD_eq
  intro i hi
  have hpos := Nat.lt_of_le_of_lt (Nat.zero_le i) hi
  have hR := Nat.mod_lt R hpos
  have hsum : i + R + (w - R % w) = i + w + w * (R / w) := by
    have hsplit := Nat.mod_add_div R w
    omega
  rw [getLsbD_rotr _ _ hi, getLsbD_rotl _ _ (Nat.mod_lt _ hpos), Nat.mod_add_mod, hsum,
    Nat.add_mul_mod_self_left, Nat.add_mod_right, Nat.mod_eq_of_lt hi]

theorem rotl_or (V W : BitVec w) (R : Nat) : rotl (V ||| W) R = rotl V R ||| rotl W R := by
  apply BitVec.eq_of_getLsbD_eq
  intro i hi
  rw [BitVec.getLsbD_or, getLsbD_rotl _ _ hi, getLsbD_rotl _ _ hi, getLsbD_rotl _ _ hi,
    BitVec.getLsbD_or]

/-- The ones below a position. -/
def lowOnes (v : BitVec w) (k : Nat) : Nat := (List.range k).countP fun i => v.getLsbD i

theorem lowOnes_le (v : BitVec w) (k : Nat) : lowOnes v k ≤ k := by
  have hle := List.countP_le_length (p := fun i => v.getLsbD i) (l := List.range k)
  rwa [List.length_range] at hle

theorem popcount_le (v : BitVec w) : popcount v ≤ w := lowOnes_le v w

theorem lowOnes_pos_iff : 0 < lowOnes v k ↔ ¬∀ i < k, v.getLsbD i = false := by
  rw [lowOnes, List.countP_pos_iff]
  simp

theorem lowOnes_lt_iff : lowOnes v k < k ↔ ¬∀ i < k, v.getLsbD i = true := by
  have hlength := List.countP_eq_length (p := fun i => v.getLsbD i) (l := List.range k)
  rw [List.length_range] at hlength
  have hle := lowOnes_le v k
  have hall : lowOnes v k = k ↔ ∀ i < k, v.getLsbD i = true := by
    rw [lowOnes, hlength]
    simp
  rw [← hall]
  omega

theorem popcount_split (v : BitVec w) (hk : k ≤ w) :
    popcount v = lowOnes v k + lowOnes (v >>> k) (w - k) := by
  have hrange : List.range w = List.range k ++ (List.range (w - k)).map (k + ·) := by
    rw [← List.range_add, Nat.add_sub_cancel' hk]
  rw [popcount, hrange, List.countP_append, List.countP_map]
  have hhigh : ((fun i => v.getLsbD i) ∘ (k + ·)) = fun i => (v >>> k).getLsbD i := by
    funext i
    simp
  rw [hhigh, lowOnes, lowOnes]

theorem popcount_ushiftRight (v : BitVec w) (hk : k ≤ w) :
    popcount (v >>> k) = lowOnes (v >>> k) (w - k) := by
  have hzero : lowOnes (v >>> k >>> (w - k)) (w - (w - k)) = 0 := by
    rw [← Nat.le_zero, ← Nat.not_lt, lowOnes_pos_iff, not_not]
    intro i _
    rw [BitVec.getLsbD_ushiftRight, BitVec.getLsbD_ushiftRight]
    exact BitVec.getLsbD_of_ge _ _ (by omega)
  rw [popcount_split _ (Nat.sub_le w k), hzero, Nat.add_zero]

theorem countl_one_le_popcount (v : BitVec w) : countl_one v ≤ popcount v := by
  have hle : countl_one v ≤ w := countl_zero_le _
  have hbits := (le_countl_one_iff_bits hle).mp (Nat.le_refl _)
  have hback : w - (w - countl_one v) = countl_one v := Nat.sub_sub_self hle
  have hall : ¬lowOnes (v >>> (w - countl_one v)) (countl_one v) < countl_one v := by
    rw [lowOnes_lt_iff, not_not]
    intro i hi
    rw [BitVec.getLsbD_ushiftRight]
    exact hbits _ (Nat.le_add_right _ _) (by omega)
  rw [popcount_split v (Nat.sub_le w (countl_one v)), hback]
  omega

def isMask (v : BitVec w) : Bool := decide (v ≠ 0) && decide ((v + 1) &&& v = 0)

def isShiftedMask (v : BitVec w) : Bool := decide (v ≠ 0) && isMask ((v - 1) ||| v)

theorem toNat_ne_zero : v ≠ 0 ↔ 0 < v.toNat := by
  rw [Nat.pos_iff_ne_zero, ne_eq, ne_eq, ← BitVec.toNat_inj]
  simp

theorem isMask_iff (hw : 0 < w) (v : BitVec w) :
    isMask v = true ↔ ∃ n, 0 < n ∧ n ≤ w ∧ v.toNat = 2 ^ n - 1 := by
  unfold isMask
  rw [Bool.and_eq_true, decide_eq_true_iff, decide_eq_true_iff, toNat_ne_zero,
    ← BitVec.toNat_inj, BitVec.toNat_and, BitVec.toNat_add, toNat_one hw]
  change _ ∧ _ = (0#w).toNat ↔ _
  rw [BitVec.toNat_zero]
  by_cases hfull : v.toNat + 1 = 2 ^ w
  · rw [hfull, Nat.mod_self, Nat.zero_and]
    constructor
    · intro _
      exact ⟨w, hw, Nat.le_refl w, by omega⟩
    · intro _
      have hpow := two_pow_eq hw
      have hpos := Nat.two_pow_pos (w - 1)
      exact ⟨by omega, rfl⟩
  · rw [Nat.mod_eq_of_lt (by omega), succ_and_eq_zero_iff]
    constructor
    · intro h
      obtain ⟨hpos, n, hn⟩ := h
      have hle : 2 ^ n ≤ 2 ^ w := by omega
      refine ⟨n, ?_, (Nat.pow_le_pow_iff_right (by decide)).mp hle, hn⟩
      rcases Nat.eq_zero_or_pos n with hzero | hn0
      · rw [hn, hzero] at hpos
        exact absurd hpos (by decide)
      · exact hn0
    · intro h
      obtain ⟨n, hn, _, heq⟩ := h
      have hpow := two_pow_eq hn
      have hpos := Nat.two_pow_pos (n - 1)
      exact ⟨by omega, n, heq⟩

theorem isShiftedMask_iff (hw : 0 < w) (v : BitVec w) :
    isShiftedMask v = true ↔
      ∃ lo n, 0 < n ∧ lo + n ≤ w ∧ v.toNat = 2 ^ lo * (2 ^ n - 1) := by
  have hone : (1 : BitVec w).toNat = 1 := toNat_one hw
  unfold isShiftedMask
  rw [Bool.and_eq_true, decide_eq_true_iff, toNat_ne_zero, isMask_iff hw, BitVec.toNat_or]
  constructor
  · intro h
    obtain ⟨hpos, n, hn, hle, heq⟩ := h
    obtain ⟨lo, m, ⟨q, hm⟩, hv⟩ := Nat.exists_eq_two_pow_mul_odd (Nat.ne_of_gt hpos)
    rw [hm] at hv
    rw [toNat_sub_of_le (by omega), hone, hv, pred_or] at heq
    have hpow := Nat.two_pow_pos n
    have hpos' : 0 < 2 ^ (lo + 1) * (q + 1) := Nat.mul_pos (Nat.two_pow_pos _) (Nat.succ_pos _)
    have hprod : 2 ^ (lo + 1) * (q + 1) = 2 ^ n := by omega
    obtain ⟨k, _, hk⟩ := (Nat.dvd_prime_pow Nat.prime_two).mp (Dvd.intro_left _ hprod)
    rw [hk, ← Nat.pow_add] at hprod
    have hn' := Nat.pow_right_injective (Nat.le_refl 2) hprod
    refine ⟨lo, k + 1, Nat.succ_pos k, by omega, ?_⟩
    have hq : 2 * q + 1 = 2 ^ (k + 1) - 1 := by
      rw [pow_succ 2 k]
      omega
    rw [hv, hq]
  · intro h
    obtain ⟨lo, n, hn, hle, hv⟩ := h
    have hpow := two_pow_eq hn
    have hpow' := Nat.two_pow_pos (n - 1)
    have hpos : 0 < v.toNat := by
      rw [hv]
      exact Nat.mul_pos (Nat.two_pow_pos lo) (by omega)
    refine ⟨hpos, lo + n, by omega, hle, ?_⟩
    have hq : 2 ^ n - 1 = 2 * (2 ^ (n - 1) - 1) + 1 := by omega
    rw [toNat_sub_of_le (by omega), hone, hv, hq, pred_or, Nat.sub_add_cancel hpow', ← Nat.pow_add]
    congr 2
    omega

end SmlnjLlvm.Support
