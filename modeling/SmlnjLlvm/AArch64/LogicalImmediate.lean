import SmlnjLlvm.Library.Loop
import SmlnjLlvm.Support.MathExtras
import Mathlib.Tactic.IntervalCases

/-!
# Logical immediates

A logical immediate repeats an element of 2 to 64 bits, which is a run of ones
on the ring of its bits. The encoding holds the size of the element, the
rotation and the length of the run.
-/

namespace SmlnjLlvm.AArch64

open Loop BitRuns Support

/-- One turn of the search for the element size. -/
def halve (Imm : BitVec 64) (Size : Nat) : Option (Turn Nat Nat) :=
  let Size := Size / 2
  let Mask := (1 : BitVec 64) <<< Size - 1
  if Imm &&& Mask ≠ Imm >>> Size &&& Mask then some (.exit (Size * 2))
  else if 2 < Size then some (.next Size)
  else some (.exit Size)

/-- The encoding `N:immr:imms` of a run of `CTO` ones from bit `I` on. -/
def packLogicalImmediate (Size I CTO : Nat) : Option (BitVec 64) := do
  guard (I < Size)
  let Immr : BitVec 32 := BitVec.ofNat 32 (Size - I) &&& BitVec.ofNat 32 (Size - 1)
  let NImms : BitVec 64 := ((~~~BitVec.ofNat 32 (Size - 1)) <<< 1).setWidth 64
  let NImms := NImms ||| BitVec.ofNat 64 (CTO - 1)
  let N : BitVec 32 := ((NImms >>> 6 &&& 1) ^^^ 1).setWidth 32
  some ((N <<< 12 ||| Immr <<< 6).setWidth 64 ||| (NImms &&& 0x3f))

/-- The rotation that makes the element a run from bit `0` on; `some none` is `false`. -/
def packElement (Imm : BitVec 64) (Size : Nat) : Option (Option (BitVec 64)) :=
  let Mask := BitVec.allOnes 64 >>> (64 - Size)
  let Imm := Imm &&& Mask
  if isShiftedMask Imm then do
    let I := countr_zero Imm
    guard (I < 64)
    let CTO := countr_one (Imm >>> I)
    (packLogicalImmediate Size I CTO).map some
  else
    let Imm := Imm ||| ~~~Mask
    if !isShiftedMask (~~~Imm) then some none
    else
      let CLO := countl_one Imm
      let I := 64 - CLO
      let CTO := CLO + countr_one Imm - (64 - Size)
      (packLogicalImmediate Size I CTO).map some

/-- A failed assertion has no result; `some none` is `false`. -/
def processLogicalImmediate (Imm : BitVec 64) (RegSize : Nat) : Option (Option (BitVec 64)) :=
  if Imm = 0 ∨ Imm = BitVec.allOnes 64 ∨
      (RegSize ≠ 64 ∧ (Imm >>> RegSize ≠ 0 ∨ Imm = BitVec.allOnes 64 >>> (64 - RegSize))) then
    some none
  else do
    let Size ← loop (halve Imm) RegSize RegSize
    packElement Imm Size

def encodeLogicalImmediate (imm : BitVec 64) (regSize : Nat) : Option (BitVec 64) :=
  (processLogicalImmediate imm regSize).join

def fieldN (val : BitVec 64) : BitVec 32 := (val >>> 12 &&& 1).setWidth 32

def fieldImmr (val : BitVec 64) : BitVec 32 := (val >>> 6 &&& 0x3f).setWidth 32

def fieldImms (val : BitVec 64) : BitVec 32 := (val &&& 0x3f).setWidth 32

/-- The logarithm of the element size, negative when there is none. -/
def fieldLen (val : BitVec 64) : Int :=
  31 - countl_zero (fieldN val <<< 6 ||| (~~~fieldImms val &&& 0x3f))

def ror (elt : BitVec 64) (size : Nat) : BitVec 64 := (elt &&& 1) <<< (size - 1) ||| elt >>> 1

/-- One turn of the loop that fills the register. -/
def replicate (regSize : Nat) : BitVec 64 × Nat → Option (Turn (BitVec 64 × Nat) (BitVec 64))
  | (pattern, size) =>
    if size ≠ regSize then some (.next (pattern ||| pattern <<< size, size * 2))
    else some (.exit pattern)

def decodeLogicalImmediate (val : BitVec 64) (regSize : Nat) : Option (BitVec 64) := do
  guard (regSize = 64 ∨ fieldN val = 0)
  let len := fieldLen val
  guard (0 ≤ len)
  let size := 1 <<< len.toNat
  let R := (fieldImmr val &&& BitVec.ofNat 32 (size - 1)).toNat
  let S := (fieldImms val &&& BitVec.ofNat 32 (size - 1)).toNat
  guard (S ≠ size - 1)
  let pattern := (1 : BitVec 64) <<< (S + 1) - 1
  let pattern := (ror · size)^[R] pattern
  loop (replicate regSize) (regSize + 1) (pattern, size)

def isValidDecodeLogicalImmediate (val : BitVec 64) (regSize : Nat) : Bool :=
  if regSize = 32 ∧ fieldN val ≠ 0 then false
  else
    let len := fieldLen val
    if len < 0 then false
    else
      let size := 1 <<< len.toNat
      let S := (fieldImms val &&& BitVec.ofNat 32 (size - 1)).toNat
      decide (S ≠ size - 1)

/-! ## Fields of an encoding -/

/-- An encoding for elements of `2 ^ k` bits, with its rotation and its last one. -/
structure HasFields (val : BitVec 64) (k R S : Nat) : Prop where
  len : fieldLen val = k
  le : k ≤ 6
  immr : (fieldImmr val &&& BitVec.ofNat 32 (2 ^ k - 1)).toNat = R
  imms : (fieldImms val &&& BitVec.ofNat 32 (2 ^ k - 1)).toNat = S
  small : fieldN val = 0 ↔ k ≤ 5

theorem fieldN_toNat (val : BitVec 64) : (fieldN val).toNat = val.toNat / 2 ^ 12 % 2 := by
  unfold fieldN
  rw [BitVec.toNat_setWidth, BitVec.toNat_and, Words.toNat_shr]
  change (_ &&& 2 ^ 1 - 1) % 2 ^ 32 = _
  rw [Nat.and_two_pow_sub_one_eq_mod]
  omega

theorem fieldImmr_toNat (val : BitVec 64) : (fieldImmr val).toNat = val.toNat / 2 ^ 6 % 2 ^ 6 := by
  unfold fieldImmr
  rw [BitVec.toNat_setWidth, BitVec.toNat_and, Words.toNat_shr]
  change (_ &&& 2 ^ 6 - 1) % 2 ^ 32 = _
  rw [Nat.and_two_pow_sub_one_eq_mod]
  omega

theorem fieldImms_toNat (val : BitVec 64) : (fieldImms val).toNat = val.toNat % 2 ^ 6 := by
  unfold fieldImms
  rw [BitVec.toNat_setWidth, BitVec.toNat_and]
  change (_ &&& 2 ^ 6 - 1) % 2 ^ 32 = _
  rw [Nat.and_two_pow_sub_one_eq_mod]
  omega

theorem toNat_and_mask {x : BitVec 32} {k : Nat} (hk : k ≤ 6) :
    (x &&& BitVec.ofNat 32 (2 ^ k - 1)).toNat = x.toNat % 2 ^ k := by
  have hlt : 2 ^ k - 1 < 2 ^ 32 := by
    have hpow : 2 ^ k ≤ 2 ^ 6 := Nat.pow_le_pow_right (by decide) hk
    omega
  rw [BitVec.toNat_and, BitVec.toNat_ofNat, Nat.mod_eq_of_lt hlt, Nat.and_two_pow_sub_one_eq_mod]

theorem lenBits_toNat (val : BitVec 64) :
    (fieldN val <<< 6 ||| (~~~fieldImms val &&& 0x3f)).toNat =
      val.toNat / 2 ^ 12 % 2 * 2 ^ 6 + (63 - val.toNat % 2 ^ 6) := by
  have hN := fieldN_toNat val
  have himms := fieldImms_toNat val
  have hcompl : (~~~fieldImms val &&& 0x3f).toNat = 63 - val.toNat % 2 ^ 6 := by
    rw [BitVec.toNat_and, BitVec.toNat_not, himms]
    change _ &&& 2 ^ 6 - 1 = _
    rw [Nat.and_two_pow_sub_one_eq_mod]
    omega
  rw [BitVec.toNat_or, BitVec.toNat_shiftLeft, hN, hcompl, Nat.shiftLeft_eq, Nat.mul_comm,
    Nat.mod_eq_of_lt (by omega), ← Nat.two_pow_add_eq_or_of_lt (by omega)]

variable {CTO R n regSize size : Nat} {f : Nat → Bool} {val : BitVec 64}

theorem fieldLen_eq {k : Nat}
    (hlo : 2 ^ k ≤ val.toNat / 2 ^ 12 % 2 * 2 ^ 6 + (63 - val.toNat % 2 ^ 6))
    (hhi : val.toNat / 2 ^ 12 % 2 * 2 ^ 6 + (63 - val.toNat % 2 ^ 6) < 2 ^ (k + 1)) :
    fieldLen val = k := by
  have hk : 2 ^ k < 2 ^ 7 := by omega
  have hk' := (Nat.pow_lt_pow_iff_right (by decide : 1 < 2)).mp hk
  rw [← lenBits_toNat] at hlo hhi
  unfold fieldLen
  rw [countl_zero_eq hlo hhi]
  omega

theorem fieldN_eq_zero_iff (val : BitVec 64) : fieldN val = 0 ↔ val.toNat / 2 ^ 12 % 2 = 0 := by
  rw [← fieldN_toNat, ← BitVec.toNat_inj]
  exact Iff.rfl

theorem HasFields.of_len {k : Nat}
    (hlo : 2 ^ k ≤ val.toNat / 2 ^ 12 % 2 * 2 ^ 6 + (63 - val.toNat % 2 ^ 6))
    (hhi : val.toNat / 2 ^ 12 % 2 * 2 ^ 6 + (63 - val.toNat % 2 ^ 6) < 2 ^ (k + 1)) :
    HasFields val k (val.toNat / 2 ^ 6 % 2 ^ 6 % 2 ^ k) (val.toNat % 2 ^ 6 % 2 ^ k) := by
  have hk : k ≤ 6 := by
    have hlt : 2 ^ k < 2 ^ 7 := by omega
    exact Nat.le_of_lt_succ ((Nat.pow_lt_pow_iff_right (by decide)).mp hlt)
  refine ⟨fieldLen_eq hlo hhi, hk, ?_, ?_, ?_⟩
  · rw [toNat_and_mask hk, fieldImmr_toNat]
  · rw [toNat_and_mask hk, fieldImms_toNat]
  · rw [fieldN_eq_zero_iff]
    constructor
    · intro hN
      have hlt : 2 ^ k < 2 ^ 6 := by omega
      exact Nat.le_of_lt_succ ((Nat.pow_lt_pow_iff_right (by decide)).mp hlt)
    · intro hk5
      have hle : 2 ^ (k + 1) ≤ 2 ^ 6 := Nat.pow_le_pow_right (by decide) (Nat.succ_le_succ hk5)
      omega

/-- An accepted encoding: at least one zero and one one, on two bits or more. -/
structure Accepted (val : BitVec 64) (regSize k R S : Nat) : Prop extends HasFields val k R S where
  pos : 0 < k
  fits : regSize = 32 → k ≤ 5
  rotation : R < 2 ^ k
  length : S + 1 < 2 ^ k

theorem HasFields.isValid_iff {k S : Nat} (h : HasFields val k R S) :
    isValidDecodeLogicalImmediate val regSize = true ↔
      (regSize = 32 → k ≤ 5) ∧ S ≠ 2 ^ k - 1 := by
  have hlen : ¬ (k : Int) < 0 := by omega
  unfold isValidDecodeLogicalImmediate
  dsimp only
  rw [h.len, Int.toNat_natCast, Nat.one_shiftLeft, h.imms, if_neg hlen]
  by_cases hbad : regSize = 32 ∧ fieldN val ≠ 0
  · rw [if_pos hbad]
    refine iff_of_false Bool.false_ne_true fun hk => ?_
    exact hbad.2 (h.small.mpr (hk.1 hbad.1))
  · rw [if_neg hbad, decide_eq_true_iff]
    refine (and_iff_right ?_).symm
    intro h32
    rw [← h.small]
    by_contra hne
    exact hbad ⟨h32, hne⟩

theorem isValid_iff :
    isValidDecodeLogicalImmediate val regSize = true ↔
      ∃ k R S, Accepted val regSize k R S := by
  constructor
  · intro hvalid
    by_cases hzero : val.toNat / 2 ^ 12 % 2 * 2 ^ 6 + (63 - val.toNat % 2 ^ 6) = 0
    · -- no element size
      have hlen : fieldLen val = -1 := by
        have hbits : (fieldN val <<< 6 ||| (~~~fieldImms val &&& 0x3f)) = 0#32 := by
          rw [← BitVec.toNat_inj, lenBits_toNat, hzero]
          rfl
        unfold fieldLen
        rw [hbits]
        decide
      unfold isValidDecodeLogicalImmediate at hvalid
      rw [hlen] at hvalid
      split at hvalid
      · cases hvalid
      · cases hvalid
    · have hlo := Nat.log2_self_le hzero
      have hhi := Nat.lt_log2_self
        (n := val.toNat / 2 ^ 12 % 2 * 2 ^ 6 + (63 - val.toNat % 2 ^ 6))
      generalize Nat.log2 (val.toNat / 2 ^ 12 % 2 * 2 ^ 6 + (63 - val.toNat % 2 ^ 6)) = k
        at hlo hhi
      have hfields := HasFields.of_len hlo hhi
      have hpow := Nat.two_pow_pos k
      obtain ⟨hfits, hne⟩ := (hfields.isValid_iff).mp hvalid
      refine ⟨k, _, _, hfields, ?_, hfits, Nat.mod_lt _ hpow, by omega⟩
      rcases Nat.eq_zero_or_pos k with hk | hk
      · rw [hk, Nat.pow_zero, Nat.mod_one] at hne
        exact absurd rfl hne
      · exact hk
  · intro h
    obtain ⟨k, R, S, h⟩ := h
    have hlength := h.length
    rw [h.toHasFields.isValid_iff]
    exact ⟨h.fits, by omega⟩

theorem nimms_toNat {k : Nat} (hk : k ≤ 6) (hCTO : CTO - 1 < 2 ^ k) :
    (((~~~BitVec.ofNat 32 (2 ^ k - 1)) <<< 1).setWidth 64 ||| BitVec.ofNat 64 (CTO - 1)).toNat =
      2 ^ (k + 1) * (2 ^ (31 - k) - 1) + (CTO - 1) := by
  have hpow : 2 ^ k ≤ 2 ^ 6 := Nat.pow_le_pow_right (by decide) hk
  have hsplit : 2 ^ (k + 1) * 2 ^ (31 - k) = 2 ^ 32 := by
    rw [← Nat.pow_add]
    congr 1
    omega
  have hones : (((~~~BitVec.ofNat 32 (2 ^ k - 1)) <<< 1).setWidth 64).toNat =
      2 ^ (k + 1) * (2 ^ (31 - k) - 1) := by
    rw [BitVec.toNat_setWidth, BitVec.toNat_shiftLeft, BitVec.toNat_not, BitVec.toNat_ofNat,
      Nat.shiftLeft_eq, pow_one, Nat.mul_sub, hsplit]
    omega
  rw [BitVec.toNat_or, hones, BitVec.toNat_ofNat, Nat.mod_eq_of_lt (by omega),
    ← Nat.two_pow_add_eq_or_of_lt (by omega)]

theorem fields_of_parts {k N : Nat} {e : BitVec 64} (hpos : 0 < k) (hk : k ≤ 6) (hN : N = k / 6)
    (he : e.toNat = 2 ^ 12 * N + 2 ^ 6 * R + ((2 ^ 6 - 2 ^ (k + 1)) + (CTO - 1))) (hR : R < 2 ^ k)
    (hCTO : 0 < CTO) (hlt : CTO < 2 ^ k) : HasFields e k R (CTO - 1) := by
  have hpow : 2 ^ k ≤ 2 ^ 6 := Nat.pow_le_pow_right (by decide) hk
  have hhigh : e.toNat / 2 ^ 12 % 2 = N := by
    omega
  have hmid : e.toNat / 2 ^ 6 % 2 ^ 6 = R := by omega
  have hlow : e.toNat % 2 ^ 6 = (2 ^ 6 - 2 ^ (k + 1)) + (CTO - 1) := by omega
  have hlen : 2 ^ k ≤ N * 2 ^ 6 + (63 - ((2 ^ 6 - 2 ^ (k + 1)) + (CTO - 1))) ∧
      N * 2 ^ 6 + (63 - ((2 ^ 6 - 2 ^ (k + 1)) + (CTO - 1))) < 2 ^ (k + 1) := by
    rw [hN]
    interval_cases k
    all_goals omega
  have hS : ((2 ^ 6 - 2 ^ (k + 1)) + (CTO - 1)) % 2 ^ k = CTO - 1 := by
    interval_cases k
    all_goals omega
  have hfields := @HasFields.of_len e k (by rw [hhigh, hlow]; exact hlen.1)
    (by rw [hhigh, hlow]; exact hlen.2)
  rw [hmid, hlow, hS, Nat.mod_eq_of_lt hR] at hfields
  exact hfields

theorem packLogicalImmediate_spec {k I : Nat} (hpos : 0 < k) (hk : k ≤ 6)
    (hfits : regSize = 32 → k ≤ 5) (hI : I < 2 ^ k) (hCTO : 0 < CTO) (hlt : CTO < 2 ^ k) :
    ∃ e, packLogicalImmediate (2 ^ k) I CTO = some e ∧ e.toNat < 2 ^ 13 ∧
      Accepted e regSize k ((2 ^ k - I) % 2 ^ k) (CTO - 1) := by
  have hpow : 2 ^ k ≤ 2 ^ 6 := Nat.pow_le_pow_right (by decide) hk
  have hnimms := nimms_toNat hk (by omega : CTO - 1 < 2 ^ k)
  unfold packLogicalImmediate
  rw [guard, if_pos hI]
  dsimp only
  generalize hNImms : ((~~~BitVec.ofNat 32 (2 ^ k - 1)) <<< 1).setWidth 64 |||
    BitVec.ofNat 64 (CTO - 1) = NImms at hnimms ⊢
  have hImmr : (BitVec.ofNat 32 (2 ^ k - I) &&& BitVec.ofNat 32 (2 ^ k - 1)).toNat =
      (2 ^ k - I) % 2 ^ k := by
    rw [toNat_and_mask hk, BitVec.toNat_ofNat, Nat.mod_eq_of_lt (a := 2 ^ k - I) (by omega)]
  have hmod := Nat.mod_lt (2 ^ k - I) (Nat.two_pow_pos k)
  generalize BitVec.ofNat 32 (2 ^ k - I) &&& BitVec.ofNat 32 (2 ^ k - 1) = Immr at hImmr ⊢
  generalize (2 ^ k - I) % 2 ^ k = R at hImmr hmod ⊢
  -- `N` is the complement of bit 6, which is set but for elements of 64 bits
  have hbit : NImms.toNat / 2 ^ 6 % 2 = 1 - k / 6 := by
    rw [hnimms]
    interval_cases k
    all_goals omega
  have himms : NImms.toNat % 2 ^ 6 = (2 ^ 6 - 2 ^ (k + 1)) + (CTO - 1) := by
    rw [hnimms]
    interval_cases k
    all_goals omega
  have hN : (((NImms >>> 6 &&& 1) ^^^ 1).setWidth 32 : BitVec 32).toNat =
      k / 6 := by
    have hand : (NImms >>> 6 &&& 1).toNat = 1 - k / 6 := by
      rw [BitVec.toNat_and, Words.toNat_shr]
      change _ &&& 2 ^ 1 - 1 = _
      rw [Nat.and_two_pow_sub_one_eq_mod, hbit]
    rw [BitVec.toNat_setWidth, BitVec.toNat_xor, hand]
    interval_cases k
    all_goals rfl
  generalize (((NImms >>> 6 &&& 1) ^^^ 1).setWidth 32 : BitVec 32) = N at hN ⊢
  have hlow : (NImms &&& 0x3f).toNat = NImms.toNat % 2 ^ 6 := by
    rw [BitVec.toNat_and]
    change _ &&& 2 ^ 6 - 1 = _
    rw [Nat.and_two_pow_sub_one_eq_mod]
  have hhigh : ((N <<< 12 ||| Immr <<< 6).setWidth 64 : BitVec 64).toNat =
      2 ^ 6 * (2 ^ 6 * N.toNat + Immr.toNat) := by
    rw [BitVec.toNat_setWidth, BitVec.toNat_or, BitVec.toNat_shiftLeft, Words.toNat_shl, Nat.shiftLeft_eq, Nat.mod_eq_of_lt (a := N.toNat * 2 ^ 12) (by omega),
      Nat.mod_eq_of_lt (a := Immr.toNat * 2 ^ 6) (by omega), Nat.mul_comm N.toNat,
      ← Nat.two_pow_add_eq_or_of_lt (by omega)]
    omega
  have he : ((N <<< 12 ||| Immr <<< 6).setWidth 64 ||| (NImms &&& 0x3f) : BitVec 64).toNat =
      2 ^ 12 * N.toNat + 2 ^ 6 * R + ((2 ^ 6 - 2 ^ (k + 1)) + (CTO - 1)) := by
    rw [BitVec.toNat_or, hhigh, hlow, ← Nat.two_pow_add_eq_or_of_lt (Nat.mod_lt _ (by decide)),
      himms, hImmr]
    omega
  refine ⟨_, rfl, ?_, ?_⟩
  · rw [he]
    omega
  · have hfields := fields_of_parts hpos hk hN he hmod hCTO hlt
    exact ⟨hfields, hpos, hfits, hmod, by omega⟩

/-! ## Bits of a decoded value -/

theorem getLsbD_ones (hn : n < 64) (i : Nat) :
    ((1 : BitVec 64) <<< n - 1).getLsbD i = decide (i < n) := by
  have hpow : 2 ^ n < 2 ^ 64 := Nat.pow_lt_pow_right (by decide) hn
  have hpos := Nat.two_pow_pos n
  have hshift : ((1 : BitVec 64) <<< n).toNat = 2 ^ n := by
    rw [Words.toNat_shl]
    change 1 * 2 ^ n % 2 ^ 64 = 2 ^ n
    rw [Nat.one_mul, Nat.mod_eq_of_lt hpow]
  have hone : (1 : BitVec 64).toNat = 1 := rfl
  have hrun : ((1 : BitVec 64) <<< n - 1).toNat = 2 ^ 0 * (2 ^ n - 1) := by
    rw [Words.toNat_sub_of_le (by rw [hshift, hone]; exact hpos), hshift, hone, Nat.pow_zero,
      Nat.one_mul]
  rw [getLsbD_run hrun, decide_eq_decide]
  omega

theorem getLsbD_ror {p : BitVec 64} (hsize : 0 < size) (hle : size ≤ 64)
    (h : ∀ i, p.getLsbD i = (decide (i < size) && f i)) (i : Nat) :
    (ror p size).getLsbD i = (decide (i < size) && f ((i + 1) % size)) := by
  unfold ror
  rw [BitVec.getLsbD_or, BitVec.getLsbD_shiftLeft, BitVec.getLsbD_and, BitVec.getLsbD_ushiftRight,
    h, h, BitVec.ofNat_eq_ofNat, BitVec.getLsbD_one]
  rcases Nat.lt_trichotomy (i + 1) size with hlt | heq | hgt
  · rw [Nat.mod_eq_of_lt hlt, Nat.add_comm 1 i]
    have h1 : i < size - 1 := by omega
    have h2 : i < size := by omega
    simp [h1, h2, hlt]
  · have h1 : ¬ i < size - 1 := by omega
    have h2 : i < size := by omega
    have h3 : i < 64 := by omega
    have h4 : i - (size - 1) = 0 := by omega
    have h5 : ¬ 1 + i < size := by omega
    rw [heq, Nat.mod_self, h4]
    simp [h1, h2, h3, h5, hsize]
  · have h2 : ¬ i < size := by omega
    have h4 : ¬ i - (size - 1) = 0 := by omega
    have h5 : ¬ 1 + i < size := by omega
    simp [h2, h4, h5]

theorem getLsbD_ror_iterate {p : BitVec 64} (hsize : 0 < size) (hle : size ≤ 64)
    (h : ∀ i, p.getLsbD i = (decide (i < size) && f i)) (R i : Nat) :
    ((ror · size)^[R] p).getLsbD i = (decide (i < size) && f ((i + R) % size)) := by
  induction R generalizing i with
  | zero =>
    rw [Function.iterate_zero, id_eq, h, Nat.add_zero]
    by_cases hi : i < size
    · rw [Nat.mod_eq_of_lt hi]
    · rw [decide_eq_false hi, Bool.false_and, Bool.false_and]
  | succ R ih =>
    rw [Function.iterate_succ_apply', getLsbD_ror (f := fun i => f ((i + R) % size)) hsize hle ih,
      Nat.mod_add_mod, Nat.add_right_comm, Nat.add_assoc]

/-- A pattern of `size` bits. -/
structure Filled (f : Nat → Bool) (size₀ r : Nat) (s : BitVec 64 × Nat) : Prop where
  pow : ∃ k, s.2 = 2 ^ k ∧ k ≤ r
  dvd : size₀ ∣ s.2
  bits : ∀ i, s.1.getLsbD i = (decide (i < s.2) && f i)

theorem replicate_spec {size₀ r : Nat} (hr : r ≤ 6) (hf : ∀ i, f (i % size₀) = f i)
    {s : BitVec 64 × Nat} (h : Filled f size₀ r s) :
    ∃ t, replicate (2 ^ r) s = some t ∧
      t.Sat (fun s' => Filled f size₀ r s' ∧ 2 ^ r - s'.2 < 2 ^ r - s.2)
        (fun v => ∀ i, v.getLsbD i = (decide (i < 2 ^ r) && f i)) := by
  obtain ⟨pattern, size⟩ := s
  obtain ⟨⟨k, hk, hle⟩, hdvd, hbits⟩ := h
  dsimp only at hk hdvd hbits
  unfold replicate
  by_cases hsize : size = 2 ^ r
  · refine ⟨.exit pattern, if_neg (not_not.mpr hsize), ?_⟩
    rw [hsize] at hbits
    exact hbits
  · have hlt : k < r := by
      rcases Nat.eq_or_lt_of_le hle with heq | hlt
      · exact absurd (heq ▸ hk) hsize
      · exact hlt
    have hpow : 2 ^ (k + 1) ≤ 2 ^ r := Nat.pow_le_pow_right (by decide) hlt
    have hpow' : 2 ^ r ≤ 2 ^ 6 := Nat.pow_le_pow_right (by decide) hr
    have hpos := Nat.two_pow_pos k
    refine ⟨_, if_pos hsize, ⟨⟨k + 1, ?_, hlt⟩, Dvd.dvd.mul_right hdvd 2, ?_⟩, ?_⟩
    · dsimp only
      rw [hk, pow_succ 2 k]
    · intro i
      rw [BitVec.getLsbD_or, BitVec.getLsbD_shiftLeft, hbits, hbits]
      by_cases h1 : i < size
      · have h2 : i < size * 2 := by omega
        simp [h1, h2]
      · have hshift : f (i - size) = f i := by
          obtain ⟨c, hc⟩ := hdvd
          have hmod : i % size₀ = (i - size) % size₀ := by
            have hsplit : i = i - size + size₀ * c := by omega
            conv_lhs => rw [hsplit]
            exact Nat.add_mul_mod_self_left _ _ _
          rw [← hf i, ← hf (i - size), hmod]
        by_cases h2 : i < size * 2
        · have h3 : i - size < size := by omega
          have h4 : i < 64 := by omega
          simp [h1, h2, h3, h4, hshift]
        · have h3 : ¬ i - size < size := by omega
          simp [h1, h2, h3]
    · dsimp only
      omega

theorem decodeLogicalImmediate_spec {r k S : Nat} (hr : r = 5 ∨ r = 6)
    (h : Accepted val (2 ^ r) k R S) :
    ∃ v, decodeLogicalImmediate val (2 ^ r) = some v ∧
      ∀ i, v.getLsbD i = (decide (i < 2 ^ r) && ringRun (2 ^ k) R (S + 1) i) := by
  have hpow : 2 ^ k ≤ 2 ^ 6 := Nat.pow_le_pow_right (by decide) h.le
  have hlen : (0 : Int) ≤ k := Int.natCast_nonneg k
  have hlength := h.length
  have hkr : k ≤ r := by
    rcases hr with rfl | rfl
    · exact h.fits rfl
    · exact h.le
  have hguard : 2 ^ r = 64 ∨ fieldN val = 0 := by
    rcases hr with rfl | rfl
    · exact Or.inr (h.small.mpr (h.fits rfl))
    · exact Or.inl rfl
  have hstart : ∀ i, ((1 : BitVec 64) <<< (S + 1) - 1).getLsbD i =
      (decide (i < 2 ^ k) && decide (i < S + 1)) := by
    intro i
    rw [getLsbD_ones (by omega), ← Bool.decide_and, decide_eq_decide]
    omega
  have hrotated := getLsbD_ror_iterate (Nat.two_pow_pos k) (by omega) hstart R
  have hfilled : Filled (ringRun (2 ^ k) R (S + 1)) (2 ^ k) r
      ((ror · (2 ^ k))^[R] ((1 : BitVec 64) <<< (S + 1) - 1), 2 ^ k) :=
    ⟨⟨k, rfl, hkr⟩, Nat.dvd_refl _, hrotated⟩
  obtain ⟨v, hrun, hbits⟩ := loop_rule (fun _ => replicate (2 ^ r)) 0
    (fun s => 2 ^ r - s.2) (fun s hs => by
      obtain ⟨t, ht, hsat⟩ := replicate_spec (by omega) (ringRun_mod _ _ _) hs
      exact ⟨t, fun _ _ => ht, hsat⟩) hfilled
  refine ⟨v, ?_, hbits⟩
  unfold decodeLogicalImmediate
  rw [guard, if_pos hguard]
  dsimp only
  rw [h.len, guard, if_pos hlen, Int.toNat_natCast, Nat.one_shiftLeft, h.immr, h.imms, guard,
    if_pos (by omega)]
  exact hrun 1 (by decide) (2 ^ r + 1) (Nat.lt_succ_of_le (Nat.sub_le _ _))

/-! ## The element -/

theorem getLsbD_mask {k : Nat} (hk : k ≤ 6) (i : Nat) :
    (BitVec.allOnes 64 >>> (64 - 2 ^ k)).getLsbD i = decide (i < 2 ^ k) := by
  have hpow : 2 ^ k ≤ 2 ^ 6 := Nat.pow_le_pow_right (by decide) hk
  rw [BitVec.getLsbD_ushiftRight, BitVec.getLsbD_allOnes, decide_eq_decide]
  omega

section Element

variable {Imm : BitVec 64} {k r : Nat}

theorem pack_run {E : BitVec 64} {lo : Nat} (hpos : 0 < k) (hk : k ≤ 6)
    (hfits : 2 ^ r = 32 → k ≤ 5) (hn : 0 < n) (hlt : n < 2 ^ k) (hle : lo + n ≤ 2 ^ k)
    (hE : E.toNat = 2 ^ lo * (2 ^ n - 1)) :
    ∃ e, (do
        guard (countr_zero E < 64)
        (packLogicalImmediate (2 ^ k) (countr_zero E) (countr_one (E >>> countr_zero E))).map some) =
          some (some e) ∧ e.toNat < 2 ^ 13 ∧
      Accepted e (2 ^ r) k ((2 ^ k - lo) % 2 ^ k) (n - 1) := by
  have hpow : 2 ^ k ≤ 2 ^ 6 := Nat.pow_le_pow_right (by decide) hk
  have hbits := getLsbD_run hE
  have hI : countr_zero E = lo := by
    apply countr_zero_eq
    · intro i hi
      rw [hbits, decide_eq_false_iff_not]
      omega
    · rw [hbits, decide_eq_true_iff]
      omega
  have hCTO : countr_one (E >>> lo) = n := by
    apply countr_one_eq (by omega)
    · intro i hi
      rw [BitVec.getLsbD_ushiftRight, hbits, decide_eq_true_iff]
      omega
    · rw [BitVec.getLsbD_ushiftRight, hbits, decide_eq_false_iff_not]
      omega
  obtain ⟨e, hpack, he, haccepted⟩ :=
    packLogicalImmediate_spec hpos hk hfits (by omega : lo < 2 ^ k) hn hlt
  refine ⟨e, ?_, he, haccepted⟩
  rw [hI, hCTO, hpack, guard, if_pos (by omega)]
  rfl

theorem pack_hole {E : BitVec 64} {lo : Nat} (hpos : 0 < k) (hk : k ≤ 6)
    (hfits : 2 ^ r = 32 → k ≤ 5) (hn : 0 < n) (hlt : lo + n < 2 ^ k)
    (hE : ∀ i, E.getLsbD i = (decide (i < 64) && !decide (lo ≤ i ∧ i < lo + n))) :
    ∃ e, (packLogicalImmediate (2 ^ k) (64 - countl_one E)
        (countl_one E + countr_one E - (64 - 2 ^ k))).map some = some (some e) ∧
      e.toNat < 2 ^ 13 ∧ Accepted e (2 ^ r) k ((2 ^ k - (lo + n)) % 2 ^ k) (2 ^ k - n - 1) := by
  have hpow : 2 ^ k ≤ 2 ^ 6 := Nat.pow_le_pow_right (by decide) hk
  have hCLO : countl_one E = 64 - 1 - (lo + n - 1) := by
    apply countl_one_eq (by omega)
    · intro i hi hw
      rw [hE, decide_eq_true hw, Bool.true_and, Bool.not_eq_true', decide_eq_false_iff_not]
      omega
    · rw [hE, Bool.and_eq_false_iff, Bool.not_eq_false', decide_eq_true_iff]
      exact Or.inr (by omega)
  have hCTO : countr_one E = lo := by
    apply countr_one_eq (by omega)
    · intro i hi
      rw [hE, decide_eq_true (by omega : i < 64), Bool.true_and, Bool.not_eq_true',
        decide_eq_false_iff_not]
      omega
    · rw [hE, Bool.and_eq_false_iff, Bool.not_eq_false', decide_eq_true_iff]
      exact Or.inr (by omega)
  have hI : 64 - countl_one E = lo + n := by omega
  have hlen : countl_one E + countr_one E - (64 - 2 ^ k) = 2 ^ k - n := by omega
  obtain ⟨e, hpack, he, haccepted⟩ :=
    packLogicalImmediate_spec hpos hk hfits hlt (by omega : 0 < 2 ^ k - n) (by omega)
  refine ⟨e, ?_, he, haccepted⟩
  rw [hI, hlen, hpack]
  rfl

/-- A block of ones, or all but a block. -/
def IsBlock (Imm : BitVec 64) (size lo n : Nat) (hole : Bool) : Prop :=
  0 < n ∧ lo + n ≤ size ∧ ∀ i < size, Imm.getLsbD i = (decide (lo ≤ i ∧ i < lo + n) ^^ hole)

theorem packElement_spec (hpos : 0 < k) (hk : k ≤ 6) (hfits : 2 ^ r = 32 → k ≤ 5)
    (hone : ∃ i < 2 ^ k, Imm.getLsbD i = true) (hzero : ∃ i < 2 ^ k, Imm.getLsbD i = false) :
    (packElement Imm (2 ^ k) = some none ∧ ∀ lo n hole, ¬ IsBlock Imm (2 ^ k) lo n hole) ∨
      ∃ e R S, packElement Imm (2 ^ k) = some (some e) ∧ e.toNat < 2 ^ 13 ∧
        Accepted e (2 ^ r) k R S ∧ ∀ i < 2 ^ k, Imm.getLsbD i = ringRun (2 ^ k) R (S + 1) i := by
  have hpow : 2 ^ k ≤ 2 ^ 6 := Nat.pow_le_pow_right (by decide) hk
  unfold packElement
  dsimp only
  have hE : ∀ i, (Imm &&& BitVec.allOnes 64 >>> (64 - 2 ^ k)).getLsbD i =
      (decide (i < 2 ^ k) && Imm.getLsbD i) := by
    intro i
    rw [BitVec.getLsbD_and, getLsbD_mask hk, Bool.and_comm]
  have hH : ∀ i, ((Imm &&& BitVec.allOnes 64 >>> (64 - 2 ^ k)) |||
      ~~~(BitVec.allOnes 64 >>> (64 - 2 ^ k))).getLsbD i =
      (decide (i < 64) && (!decide (i < 2 ^ k) || Imm.getLsbD i)) := by
    intro i
    rw [BitVec.getLsbD_or, hE, BitVec.getLsbD_not, getLsbD_mask hk]
    by_cases h1 : i < 2 ^ k
    · have h2 : i < 64 := by omega
      simp [h1, h2]
    · simp [h1]
  have hnot : ∀ i, (~~~((Imm &&& BitVec.allOnes 64 >>> (64 - 2 ^ k)) |||
      ~~~(BitVec.allOnes 64 >>> (64 - 2 ^ k)))).getLsbD i =
      (decide (i < 2 ^ k) && !Imm.getLsbD i) := by
    intro i
    rw [BitVec.getLsbD_not, hH]
    by_cases h1 : i < 2 ^ k
    · have h2 : i < 64 := by omega
      simp [h1, h2]
    · by_cases h2 : i < 64
      · simp [h1, h2]
      · simp [h1, h2]
  generalize (Imm &&& BitVec.allOnes 64 >>> (64 - 2 ^ k)) = E at hE hH hnot ⊢
  generalize (E ||| ~~~(BitVec.allOnes 64 >>> (64 - 2 ^ k))) = H at hH hnot ⊢
  obtain ⟨z, hz, hzbit⟩ := hzero
  by_cases hrun : isShiftedMask E = true
  · right
    rw [if_pos hrun]
    obtain ⟨lo, n, hn, hle, hmask⟩ := (isShiftedMask_iff (by decide) E).mp hrun
    have hbits := getLsbD_run hmask
    have htop : lo + n ≤ 2 ^ k := by
      have htrue := hE (lo + n - 1)
      rw [hbits, decide_eq_true (by omega)] at htrue
      have hlt := (Bool.and_eq_true_iff.mp htrue.symm).1
      rw [decide_eq_true_iff] at hlt
      omega
    have hImm : ∀ i < 2 ^ k, Imm.getLsbD i = decide (lo ≤ i ∧ i < lo + n) := by
      intro i hi
      rw [← hbits, hE, decide_eq_true hi, Bool.true_and]
    have hlt : n < 2 ^ k := by
      rw [hImm z hz, decide_eq_false_iff_not] at hzbit
      omega
    obtain ⟨e, hpack, he, haccepted⟩ := pack_run (r := r) hpos hk hfits hn hlt htop hmask
    refine ⟨e, _, _, hpack, he, haccepted, ?_⟩
    intro i hi
    rw [hImm i hi, ringRun_from hi (by omega), decide_eq_decide]
    split
    · omega
    · omega
  · rw [if_neg hrun]
    by_cases hhole : isShiftedMask (~~~H) = true
    · right
      rw [hhole, Bool.not_true, if_neg Bool.false_ne_true]
      obtain ⟨lo, n, hn, hle, hmask⟩ := (isShiftedMask_iff (by decide) (~~~H)).mp hhole
      have hbits := getLsbD_run hmask
      have htop : lo + n ≤ 2 ^ k := by
        have htrue := hnot (lo + n - 1)
        rw [hbits, decide_eq_true (by omega)] at htrue
        have hlt := (Bool.and_eq_true_iff.mp htrue.symm).1
        rw [decide_eq_true_iff] at hlt
        omega
      have hImm : ∀ i < 2 ^ k, Imm.getLsbD i = !decide (lo ≤ i ∧ i < lo + n) := by
        intro i hi
        rw [← hbits, hnot, decide_eq_true hi, Bool.true_and, Bool.not_not]
      -- a hole at the top would leave a run
      have hlt : lo + n < 2 ^ k := by
        rcases Nat.eq_or_lt_of_le htop with heq | hlt
        · refine absurd ?_ hrun
          obtain ⟨o, ho, hobit⟩ := hone
          rw [hImm o ho, Bool.not_eq_true', decide_eq_false_iff_not] at hobit
          rw [isShiftedMask_iff (by decide)]
          refine ⟨0, lo, by omega, by omega, toNat_run fun i => ?_⟩
          rw [hE]
          by_cases h1 : i < 2 ^ k
          · rw [decide_eq_true h1, Bool.true_and, hImm i h1, ← decide_not, decide_eq_decide]
            omega
          · rw [decide_eq_false h1, Bool.false_and, eq_comm, decide_eq_false_iff_not]
            omega
        · exact hlt
      have hHbits : ∀ i, H.getLsbD i = (decide (i < 64) && !decide (lo ≤ i ∧ i < lo + n)) := by
        intro i
        have hflip := hbits i
        rw [BitVec.getLsbD_not] at hflip
        by_cases h2 : i < 64
        · rw [decide_eq_true h2, Bool.true_and] at hflip ⊢
          rw [← hflip, Bool.not_not]
        · rw [hH, decide_eq_false h2, Bool.false_and, Bool.false_and]
      obtain ⟨e, hpack, he, haccepted⟩ := pack_hole (r := r) hpos hk hfits hn hlt hHbits
      refine ⟨e, _, _, hpack, he, haccepted, ?_⟩
      intro i hi
      rw [hImm i hi, ringRun_from hi hlt, ← decide_not, decide_eq_decide]
      split
      · omega
      · omega
    · left
      refine ⟨?_, ?_⟩
      · rw [Bool.not_eq_true] at hhole
        rw [hhole, Bool.not_false, if_pos rfl]
      · intro lo n hole hblock
        obtain ⟨hn, hle, hbits⟩ := hblock
        cases hole with
        | false =>
          refine hrun ((isShiftedMask_iff (by decide) E).mpr
            ⟨lo, n, hn, by omega, toNat_run fun i => ?_⟩)
          rw [hE]
          by_cases h1 : i < 2 ^ k
          · rw [decide_eq_true h1, Bool.true_and, hbits i h1, Bool.xor_false]
          · rw [decide_eq_false h1, Bool.false_and, eq_comm, decide_eq_false_iff_not]
            omega
        | true =>
          refine hhole ((isShiftedMask_iff (by decide) (~~~H)).mpr
            ⟨lo, n, hn, by omega, toNat_run fun i => ?_⟩)
          rw [hnot]
          by_cases h1 : i < 2 ^ k
          · rw [decide_eq_true h1, Bool.true_and, hbits i h1, Bool.xor_true, Bool.not_not]
          · rw [decide_eq_false h1, Bool.false_and, eq_comm, decide_eq_false_iff_not]
            omega

theorem exists_isBlock (hn : 0 < n) (hlt : n < size) (hR : R < size)
    (hImm : ∀ i < size, Imm.getLsbD i = ringRun size R n i) :
    ∃ lo len hole, IsBlock Imm size lo len hole := by
  have hring : ∀ i < size, Imm.getLsbD i =
      decide ((if i + R < size then i + R else i + R - size) < n) := by
    intro i hi
    rw [hImm i hi, ringRun, add_mod_ring hi hR]
  rcases Nat.eq_zero_or_pos R with hzero | hpos
  · refine ⟨0, n, false, hn, by omega, fun i hi => ?_⟩
    rw [hring i hi, Bool.xor_false, decide_eq_decide, hzero, Nat.add_zero, if_pos hi]
    omega
  · by_cases hle : n ≤ R
    · refine ⟨size - R, n, false, hn, by omega, fun i hi => ?_⟩
      rw [hring i hi, Bool.xor_false, decide_eq_decide]
      split
      · omega
      · omega
    · refine ⟨n - R, size - n, true, by omega, by omega, fun i hi => ?_⟩
      rw [hring i hi, Bool.xor_true, ← decide_not, decide_eq_decide]
      split
      · omega
      · omega

theorem packElement_ne_none (hpos : 0 < k) (hk : k ≤ 6) (hfits : 2 ^ r = 32 → k ≤ 5) (hn : 0 < n)
    (hlt : n < 2 ^ k) (hR : R < 2 ^ k) (hImm : ∀ i < 2 ^ k, Imm.getLsbD i = ringRun (2 ^ k) R n i) :
    ∃ e, packElement Imm (2 ^ k) = some (some e) := by
  obtain ⟨i, hi, hone⟩ := exists_ringRun (Nat.two_pow_pos k) R n
  obtain ⟨j, hj, hzero⟩ := exists_ringRun hlt R n
  rw [decide_eq_true hn, ← hImm i hi] at hone
  rw [decide_eq_false (Nat.lt_irrefl n), ← hImm j hj] at hzero
  rcases packElement_spec (r := r) hpos hk hfits ⟨i, hi, hone⟩ ⟨j, hj, hzero⟩ with
    ⟨_, hnone⟩ | ⟨e, _, _, he, _⟩
  · obtain ⟨lo, len, hole, hblock⟩ := exists_isBlock hn hlt hR hImm
    exact absurd hblock (hnone lo len hole)
  · exact ⟨e, he⟩

end Element

/-- Bits that repeat after `size`. -/
def Periodic (Imm : BitVec 64) (RegSize size : Nat) : Prop :=
  ∀ i < RegSize, Imm.getLsbD i = Imm.getLsbD (i % size)

/-- The least element size, but for a single bit. -/
structure ElementSize (Imm : BitVec 64) (r k : Nat) : Prop where
  pos : 0 < k
  le : k ≤ r
  periodic : Periodic Imm (2 ^ r) (2 ^ k)
  least : k = 1 ∨ ¬ Periodic Imm (2 ^ r) (2 ^ (k - 1))

theorem and_mask_eq_iff (Imm : BitVec 64) {s : Nat} (hs : s < 64) :
    Imm &&& ((1 : BitVec 64) <<< s - 1) = Imm >>> s &&& ((1 : BitVec 64) <<< s - 1) ↔
      ∀ i < s, Imm.getLsbD i = Imm.getLsbD (i + s) := by
  constructor
  · intro h i hi
    have hbit : (Imm &&& ((1 : BitVec 64) <<< s - 1)).getLsbD i =
        (Imm >>> s &&& ((1 : BitVec 64) <<< s - 1)).getLsbD i := by rw [h]
    rw [BitVec.getLsbD_and, BitVec.getLsbD_and, getLsbD_ones hs, BitVec.getLsbD_ushiftRight,
      decide_eq_true hi, Bool.and_true, Bool.and_true, Nat.add_comm] at hbit
    exact hbit
  · intro h
    refine BitVec.eq_of_getLsbD_eq fun i _ => ?_
    rw [BitVec.getLsbD_and, BitVec.getLsbD_and, getLsbD_ones hs, BitVec.getLsbD_ushiftRight]
    by_cases hi : i < s
    · rw [h i hi, Nat.add_comm]
    · rw [decide_eq_false hi, Bool.and_false, Bool.and_false]

/-- The size at the start of a turn. -/
def Halving (Imm : BitVec 64) (r Size : Nat) : Prop :=
  ∃ k, 2 ≤ k ∧ k ≤ r ∧ Size = 2 ^ k ∧ Periodic Imm (2 ^ r) Size

theorem halve_spec {Imm : BitVec 64} {r Size : Nat} (hr : r ≤ 6)
    (h : Halving Imm r Size) : ∃ t, halve Imm Size = some t ∧
      t.Sat (fun Size' => Halving Imm r Size' ∧ Size' - 1 < Size - 1)
        (fun Size' => ∃ k, Size' = 2 ^ k ∧ ElementSize Imm r k) := by
  obtain ⟨k, hk, hkr, rfl, hperiodic⟩ := h
  have hhalf : 2 ^ k / 2 = 2 ^ (k - 1) := by
    rw [Words.two_pow_eq (by omega : 0 < k), Nat.mul_div_cancel_left _ Nat.two_pos]
  have hdouble : 2 ^ k = 2 * 2 ^ (k - 1) := Words.two_pow_eq (by omega)
  have hle : 2 ^ (k - 1) ≤ 2 ^ 5 := Nat.pow_le_pow_right (by decide) (by omega)
  have hreg : 2 ^ k ≤ 2 ^ r := Nat.pow_le_pow_right (by decide) hkr
  unfold halve
  rw [hhalf]
  by_cases hsame : ∀ i < 2 ^ (k - 1), Imm.getLsbD i = Imm.getLsbD (i + 2 ^ (k - 1))
  · rw [if_neg (not_not.mpr ((and_mask_eq_iff Imm (by omega)).mpr hsame))]
    have hperiodic' : Periodic Imm (2 ^ r) (2 ^ (k - 1)) := by
      intro i hi
      rw [hperiodic i hi]
      have hmod := Nat.mod_lt i (Nat.two_pow_pos k)
      rw [← Nat.mod_mod_of_dvd i (pow_dvd_pow 2 (Nat.sub_le k 1))]
      generalize i % 2 ^ k = j at hmod
      by_cases hlow : j < 2 ^ (k - 1)
      · rw [Nat.mod_eq_of_lt hlow]
      · have hsub : j - 2 ^ (k - 1) < 2 ^ (k - 1) := by omega
        rw [Nat.mod_eq_sub_mod (Nat.not_lt.mp hlow), Nat.mod_eq_of_lt hsub, hsame _ hsub,
          Nat.sub_add_cancel (Nat.not_lt.mp hlow)]
    by_cases hgo : 2 < 2 ^ (k - 1)
    · rw [if_pos hgo]
      refine ⟨_, rfl, ⟨k - 1, ?_, by omega, rfl, hperiodic'⟩, by omega⟩
      by_contra hsmall
      have hone : k - 1 = 1 := by omega
      rw [hone] at hgo
      omega
    · rw [if_neg hgo]
      refine ⟨_, rfl, k - 1, rfl, by omega, by omega, hperiodic', Or.inl ?_⟩
      have hone : 2 ^ (k - 1) ≤ 2 ^ 1 := by omega
      have hle' := (Nat.pow_le_pow_iff_right (by decide)).mp hone
      omega
  · rw [if_pos (mt (and_mask_eq_iff Imm (by omega)).mp hsame)]
    refine ⟨_, rfl, k, by omega, by omega, hkr, hperiodic, Or.inr ?_⟩
    intro hperiodic'
    apply hsame
    intro i hi
    rw [hperiodic' (i + 2 ^ (k - 1)) (by omega), Nat.add_mod_right, Nat.mod_eq_of_lt hi]

theorem elementSize_spec (Imm : BitVec 64) {r : Nat} (hr : r = 5 ∨ r = 6) :
    ∃ k, loop (halve Imm) (2 ^ r) (2 ^ r) = some (2 ^ k) ∧ ElementSize Imm r k := by
  have hstart : Halving Imm r (2 ^ r) :=
    ⟨r, by omega, Nat.le_refl r, rfl, fun i hi => by rw [Nat.mod_eq_of_lt hi]⟩
  obtain ⟨Size, hrun, k, hSize, hk⟩ := loop_rule (fun _ => halve Imm) 0
    (fun Size => Size - 1) (fun Size (hs : Halving Imm r Size) => by
      obtain ⟨t, ht, hsat⟩ := halve_spec (by omega) hs
      exact ⟨t, fun _ _ => ht, hsat⟩) hstart
  have hpos := Nat.two_pow_pos r
  exact ⟨k, hSize ▸ hrun 1 (by decide) (2 ^ r) (by omega), hk⟩

/-! ## Encoding and decoding -/

/-- Bits of a register that repeat a run on a ring. -/
def Repeats (Imm : BitVec 64) (r k R n : Nat) : Prop :=
  ∀ i, Imm.getLsbD i = (decide (i < 2 ^ r) && ringRun (2 ^ k) R n i)

theorem ElementSize.eq_of_repeats {Imm : BitVec 64} {r k l : Nat} (h : ElementSize Imm r k)
    (hl : 0 < l) (hlr : l ≤ r) (hn : 0 < n) (hlt : n < 2 ^ l) (hImm : Repeats Imm r l R n) :
    k = l := by
  have hbit : ∀ i < 2 ^ r, Imm.getLsbD i = ringRun (2 ^ l) R n i := by
    intro i hi
    rw [hImm, decide_eq_true hi, Bool.true_and]
  rcases Nat.lt_trichotomy k l with hkl | heq | hgt
  · -- the ring would have a shorter period
    exfalso
    refine ringRun_no_period (R := R) hn hlt (Nat.two_pow_pos k)
      (Nat.pow_lt_pow_right (by decide) hkl) fun i => ?_
    have hreg : ∀ i, ringRun (2 ^ l) R n i = Imm.getLsbD (i % 2 ^ k) := by
      intro i
      have hlt' := Nat.mod_lt i (Nat.two_pow_pos r)
      rw [← ringRun_mod_of_dvd (pow_dvd_pow 2 hlr), ← hbit _ hlt', h.periodic _ hlt',
        Nat.mod_mod_of_dvd _ (pow_dvd_pow 2 h.le)]
    rw [hreg, hreg, Nat.add_mod_right]
  · exact heq
  · exfalso
    rcases h.least with hone | hleast
    · omega
    · apply hleast
      intro i hi
      have hle : i % 2 ^ (k - 1) < 2 ^ r :=
        Nat.mod_lt_of_lt hi
      rw [hbit i hi, hbit _ hle, ringRun_mod_of_dvd (pow_dvd_pow 2 (by omega))]

/-- Neither all zeros nor all ones, and nothing above the register. -/
def Mixed (Imm : BitVec 64) (r : Nat) : Prop :=
  (∃ i < 2 ^ r, Imm.getLsbD i = true) ∧ (∃ i < 2 ^ r, Imm.getLsbD i = false) ∧
    ∀ i, 2 ^ r ≤ i → Imm.getLsbD i = false

theorem mixed_iff (Imm : BitVec 64) {r : Nat} (hr : r = 5 ∨ r = 6) :
    ¬ (Imm = 0 ∨ Imm = BitVec.allOnes 64 ∨ (2 ^ r ≠ 64 ∧
      (Imm >>> (2 ^ r) ≠ 0 ∨ Imm = BitVec.allOnes 64 >>> (64 - 2 ^ r)))) ↔ Mixed Imm r := by
  have hreg : 2 ^ r ≤ 2 ^ 6 := Nat.pow_le_pow_right (by decide) (by omega)
  have hmask : ∀ i, (BitVec.allOnes 64 >>> (64 - 2 ^ r)).getLsbD i = decide (i < 2 ^ r) :=
    getLsbD_mask (by omega)
  constructor
  · intro h
    rw [not_or, not_or] at h
    obtain ⟨hzero, hones, hsmall⟩ := h
    have habove : ∀ i, 2 ^ r ≤ i → Imm.getLsbD i = false := by
      intro i hi
      by_cases hfull : 2 ^ r = 64
      · exact BitVec.getLsbD_of_ge Imm i (hfull ▸ hi)
      · by_contra hbit
        refine hsmall ⟨hfull, Or.inl fun hshift => hbit ?_⟩
        have hrest : (Imm >>> (2 ^ r)).getLsbD (i - 2 ^ r) = false := by
          rw [hshift]
          exact BitVec.getLsbD_zero
        rw [BitVec.getLsbD_ushiftRight, Nat.add_sub_cancel' hi] at hrest
        exact hrest
    refine ⟨?_, ?_, habove⟩
    · by_contra hnone
      push Not at hnone
      refine hzero (BitVec.eq_of_getLsbD_eq fun i _ => ?_)
      rw [BitVec.ofNat_eq_ofNat, BitVec.getLsbD_zero]
      by_cases hi : i < 2 ^ r
      · exact Bool.eq_false_iff.mpr (hnone i hi)
      · exact habove i (Nat.not_lt.mp hi)
    · by_contra hall
      push Not at hall
      have heq : Imm = BitVec.allOnes 64 >>> (64 - 2 ^ r) := by
        refine BitVec.eq_of_getLsbD_eq fun i _ => ?_
        rw [hmask]
        by_cases hi : i < 2 ^ r
        · rw [decide_eq_true hi]
          exact Bool.not_eq_false _ ▸ hall i hi
        · rw [decide_eq_false hi]
          exact habove i (Nat.not_lt.mp hi)
      by_cases hfull : 2 ^ r = 64
      · apply hones
        rw [heq, hfull]
        rfl
      · exact hsmall ⟨hfull, Or.inr heq⟩
  · intro h hbad
    obtain ⟨⟨i, hi, hone⟩, ⟨j, hj, hzero⟩, habove⟩ := h
    rcases hbad with hbad | hbad | ⟨_, hbad | hbad⟩
    · rw [hbad, BitVec.ofNat_eq_ofNat, BitVec.getLsbD_zero] at hone
      cases hone
    · rw [hbad, BitVec.getLsbD_allOnes, decide_eq_false_iff_not] at hzero
      omega
    · refine hbad (BitVec.eq_of_getLsbD_eq fun l _ => ?_)
      rw [BitVec.getLsbD_ushiftRight, habove _ (Nat.le_add_right _ _), BitVec.ofNat_eq_ofNat,
        BitVec.getLsbD_zero]
    · rw [hbad, hmask, decide_eq_false_iff_not] at hzero
      exact hzero hj

theorem Repeats.mixed {Imm : BitVec 64} {r k : Nat} (hkr : k ≤ r) (hn : 0 < n) (hlt : n < 2 ^ k)
    (h : Repeats Imm r k R n) : Mixed Imm r := by
  have hle : 2 ^ k ≤ 2 ^ r := Nat.pow_le_pow_right (by decide) hkr
  have hbit : ∀ i < 2 ^ k, Imm.getLsbD i = ringRun (2 ^ k) R n i := by
    intro i hi
    rw [h, decide_eq_true (Nat.lt_of_lt_of_le hi hle), Bool.true_and]
  obtain ⟨i, hi, hone⟩ := exists_ringRun (Nat.two_pow_pos k) R n
  obtain ⟨j, hj, hzero⟩ := exists_ringRun hlt R n
  rw [decide_eq_true hn, ← hbit i hi] at hone
  rw [decide_eq_false (Nat.lt_irrefl n), ← hbit j hj] at hzero
  refine ⟨⟨i, Nat.lt_of_lt_of_le hi hle, hone⟩, ⟨j, Nat.lt_of_lt_of_le hj hle, hzero⟩,
    fun l hl => ?_⟩
  rw [h, decide_eq_false (Nat.not_lt.mpr hl), Bool.false_and]

theorem processLogicalImmediate_sound (Imm : BitVec 64) {r : Nat} (hr : r = 5 ∨ r = 6) :
    processLogicalImmediate Imm (2 ^ r) = some none ∨
      ∃ e k R S, processLogicalImmediate Imm (2 ^ r) = some (some e) ∧ e.toNat < 2 ^ 13 ∧
        Accepted e (2 ^ r) k R S ∧ Repeats Imm r k R (S + 1) := by
  unfold processLogicalImmediate
  by_cases hmixed : Mixed Imm r
  · rw [if_neg ((mixed_iff Imm hr).mpr hmixed)]
    obtain ⟨k, hsize, hk⟩ := elementSize_spec Imm hr
    have hkr := hk.le
    have hfits : 2 ^ r = 32 → k ≤ 5 := by
      intro h32
      have hr5 := Nat.pow_right_injective (Nat.le_refl 2) (h32.trans (by decide : 32 = 2 ^ 5))
      omega
    have helement : ∀ b, (∃ i < 2 ^ r, Imm.getLsbD i = b) → ∃ i < 2 ^ k, Imm.getLsbD i = b := by
      intro b h
      obtain ⟨i, hi, hb⟩ := h
      exact ⟨i % 2 ^ k, Nat.mod_lt _ (Nat.two_pow_pos k), by rw [← hk.periodic i hi, hb]⟩
    rw [hsize, some_bind]
    rcases packElement_spec hk.pos (by omega) hfits (helement _ hmixed.1) (helement _ hmixed.2.1)
      with ⟨hnone, _⟩ | ⟨e, R, S, hpack, he, haccepted, hbits⟩
    · exact Or.inl hnone
    · refine Or.inr ⟨e, k, R, S, hpack, he, haccepted, fun i => ?_⟩
      by_cases hi : i < 2 ^ r
      · rw [hk.periodic i hi, hbits _ (Nat.mod_lt _ (Nat.two_pow_pos k)), ringRun_mod,
          decide_eq_true hi, Bool.true_and]
      · rw [hmixed.2.2 i (Nat.not_lt.mp hi), decide_eq_false hi, Bool.false_and]
  · rw [if_pos (not_not.mp (mt (mixed_iff Imm hr).mp hmixed))]
    exact Or.inl rfl

theorem processLogicalImmediate_complete {Imm : BitVec 64} {r l : Nat} (hr : r = 5 ∨ r = 6)
    (hl : 0 < l) (hlr : l ≤ r) (hn : 0 < n) (hlt : n < 2 ^ l) (hR : R < 2 ^ l)
    (h : Repeats Imm r l R n) : ∃ e, processLogicalImmediate Imm (2 ^ r) = some (some e) := by
  obtain ⟨k, hsize, hk⟩ := elementSize_spec Imm hr
  have hkl := hk.eq_of_repeats hl hlr hn hlt h
  have hfits : 2 ^ r = 32 → l ≤ 5 := by
    intro h32
    have hr5 := Nat.pow_right_injective (Nat.le_refl 2) (h32.trans (by decide : 32 = 2 ^ 5))
    omega
  have hle : 2 ^ l ≤ 2 ^ r := Nat.pow_le_pow_right (by decide) hlr
  unfold processLogicalImmediate
  rw [if_neg ((mixed_iff Imm hr).mpr (h.mixed hlr hn hlt)), hsize, hkl, some_bind]
  refine packElement_ne_none hl (by omega) hfits hn hlt hR fun i hi => ?_
  rw [h, decide_eq_true (Nat.lt_of_lt_of_le hi hle), Bool.true_and]

/--
The encoder accepts the immediates that some accepted encoding decodes to, and
its encoding is one of those.
-/
theorem processLogicalImmediate_exact {RegSize : Nat} (hsize : RegSize = 32 ∨ RegSize = 64)
    (Imm : BitVec 64) :
    processLogicalImmediate Imm RegSize ≠ none ∧
    ((∃ e, processLogicalImmediate Imm RegSize = some (some e)) ↔
      ∃ e : BitVec 64, e.toNat < 2 ^ 13 ∧ isValidDecodeLogicalImmediate e RegSize = true ∧
        decodeLogicalImmediate e RegSize = some Imm) ∧
    (∀ e, processLogicalImmediate Imm RegSize = some (some e) → e.toNat < 2 ^ 13 ∧
      isValidDecodeLogicalImmediate e RegSize = true ∧
      decodeLogicalImmediate e RegSize = some Imm) ∧
    (∀ e : BitVec 64, e.toNat < 2 ^ 13 → isValidDecodeLogicalImmediate e RegSize = true →
      ∃ v e', decodeLogicalImmediate e RegSize = some v ∧
        encodeLogicalImmediate v RegSize = some e' ∧
        decodeLogicalImmediate e' RegSize = some v) := by
  obtain ⟨r, hr, rfl⟩ : ∃ r, (r = 5 ∨ r = 6) ∧ RegSize = 2 ^ r := by
    rcases hsize with rfl | rfl
    · exact ⟨5, Or.inl rfl, rfl⟩
    · exact ⟨6, Or.inr rfl, rfl⟩
  -- an accepted encoding decodes to the register that repeats its run, and to no other
  have hdecode : ∀ (e : BitVec 64) (k R S : Nat) (v : BitVec 64), Accepted e (2 ^ r) k R S →
      (decodeLogicalImmediate e (2 ^ r) = some v ↔ Repeats v r k R (S + 1)) := by
    intro e k R S v haccepted
    obtain ⟨v', hv', hbits⟩ := decodeLogicalImmediate_spec hr haccepted
    rw [hv', Option.some.injEq]
    constructor
    · intro heq
      exact heq ▸ hbits
    · intro hrepeats
      refine BitVec.eq_of_getLsbD_eq fun i _ => ?_
      rw [hbits, hrepeats]
  have hle : ∀ e k R S, Accepted e (2 ^ r) k R S → k ≤ r := by
    intro e k R S haccepted
    have hk := haccepted.le
    rcases hr with rfl | rfl
    · exact haccepted.fits rfl
    · exact hk
  have hsound : ∀ v e, processLogicalImmediate v (2 ^ r) = some (some e) → e.toNat < 2 ^ 13 ∧
      isValidDecodeLogicalImmediate e (2 ^ r) = true ∧
      decodeLogicalImmediate e (2 ^ r) = some v := by
    intro v e hprocess
    rcases processLogicalImmediate_sound v hr with hnone | ⟨e', k, R, S, hsome, he, hacc, hrep⟩
    · rw [hnone] at hprocess
      cases hprocess
    · rw [hsome, Option.some.injEq, Option.some.injEq] at hprocess
      rw [← hprocess]
      exact ⟨he, isValid_iff.mpr ⟨k, R, S, hacc⟩, (hdecode e' k R S v hacc).mpr hrep⟩
  have hcomplete : ∀ (e v : BitVec 64), isValidDecodeLogicalImmediate e (2 ^ r) = true →
      decodeLogicalImmediate e (2 ^ r) = some v →
      ∃ e', processLogicalImmediate v (2 ^ r) = some (some e') := by
    intro e v hvalid hv
    obtain ⟨k, R, S, hacc⟩ := isValid_iff.mp hvalid
    exact processLogicalImmediate_complete hr hacc.pos (hle e k R S hacc) (Nat.succ_pos S)
      hacc.length hacc.rotation ((hdecode e k R S v hacc).mp hv)
  refine ⟨?_, ⟨?_, ?_⟩, hsound Imm, ?_⟩
  · rcases processLogicalImmediate_sound Imm hr with hnone | ⟨_, _, _, _, hsome, _⟩
    · rw [hnone]
      exact Option.some_ne_none _
    · rw [hsome]
      exact Option.some_ne_none _
  · intro h
    obtain ⟨e, he⟩ := h
    exact ⟨e, hsound Imm e he⟩
  · intro h
    obtain ⟨e, _, hvalid, hdec⟩ := h
    exact hcomplete e Imm hvalid hdec
  · intro e _ hvalid
    obtain ⟨k, R, S, hacc⟩ := isValid_iff.mp hvalid
    obtain ⟨v, hv, _⟩ := decodeLogicalImmediate_spec hr hacc
    obtain ⟨e', he'⟩ := hcomplete e v hvalid hv
    refine ⟨v, e', hv, ?_, (hsound v e' he').2.2⟩
    unfold encodeLogicalImmediate
    rw [he']
    rfl

/-- Bytes of ones and zeros in turn. -/
theorem processLogicalImmediate_exact_bytes :
    ∃ e, processLogicalImmediate 0x00ff00ff00ff00ff 64 = some (some e) ∧
      decodeLogicalImmediate e 64 = some 0x00ff00ff00ff00ff := by
  obtain ⟨_, _, hsound, _⟩ := processLogicalImmediate_exact (Or.inr rfl) 0x00ff00ff00ff00ff
  have hprocess : processLogicalImmediate 0x00ff00ff00ff00ff 64 = some (some 39) := by
    decide +kernel
  exact ⟨39, hprocess, (hsound 39 hprocess).2.2⟩

end SmlnjLlvm.AArch64
