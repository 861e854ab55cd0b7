import SmlnjLlvm.Support.LEB128Encode

/-!
# What the LEB128 decoders read

A decoder follows the groups with `Shift = 7 * k`. The tenth group has one bit
left, so that the eleventh one is shifted by 70: a string that reaches its
eleventh byte without an error has no result.
-/

namespace SmlnjLlvm.LEB128

open Base128

theorem slice_toNat (b : UInt8) : (slice b).toNat = group b := by
  have hall : ∀ b : Fin 256, (UInt8.ofNat b.val &&& 0x7f).toNat = b.val % 128 := by
    decide +kernel
  have hb := hall ⟨b.toNat, b.toNat_lt⟩
  rw [UInt8.ofNat_toNat] at hb
  unfold slice
  rw [BitVec.toNat_setWidth, UInt8.toNat_toBitVec, hb]
  exact Nat.mod_eq_of_lt (Nat.lt_trans (group_lt b) (by decide))

theorem slice_eq_iff (b : UInt8) {c : Nat} (hc : c < 2 ^ 64) :
    slice b = BitVec.ofNat 64 c ↔ group b = c := by
  rw [← slice_toNat]
  constructor
  · intro h
    rw [h, BitVec.toNat_ofNat, Nat.mod_eq_of_lt hc]
  · rintro rfl
    rw [BitVec.ofNat_toNat, BitVec.setWidth_eq]

variable {S s : Nat} {num : List UInt8} {x : BitVec 64}

theorem shl64_of_lt (h : s < 64) : shl64 x s = some (x <<< s) := if_pos h

theorem shl64_of_ge (h : 64 ≤ s) : shl64 x s = none :=
  if_neg (Nat.not_lt.mpr h)

theorem shifted_lt {V g k : Nat} (hV : V < 2 ^ (7 * k)) (hg : g < 128) :
    V + g * 2 ^ (7 * k) < 2 ^ (7 * (k + 1)) := by
  have hpow : 2 ^ (7 * (k + 1)) = 128 * 2 ^ (7 * k) := by
    rw [Nat.mul_add, Nat.pow_add, Nat.mul_comm]
  rw [hpow]
  nlinarith

theorem slice_shiftLeft_toNat (b : UInt8) (h : group b * 2 ^ s < 2 ^ 64) :
    (slice b <<< s).toNat = group b * 2 ^ s := by
  rw [BitVec.toNat_shiftLeft, slice_toNat, Nat.shiftLeft_eq, Nat.mod_eq_of_lt h]

/--
After `k` groups, the string has ten groups that continue, the tenth of which
is accepted, and an eleventh that is accepted too.
-/
def Overruns (accepts : UInt8 → UInt8 → Prop) (k : Nat) (p : List UInt8) : Prop :=
  ∃ init tenth eleventh rest, p = init ++ tenth :: eleventh :: rest ∧ k + init.length = 9 ∧
    (∀ b ∈ init, Continues b) ∧ Continues tenth ∧ accepts tenth eleventh

variable {accepts : UInt8 → UInt8 → Prop} {k : Nat} {b : UInt8} {p : List UInt8}

theorem overruns_cons_iff (hk : k < 9) :
    Overruns accepts k (b :: p) ↔ Continues b ∧ Overruns accepts (k + 1) p := by
  constructor
  · rintro ⟨init, tenth, eleventh, rest, heq, hlen, hinit, htenth, haccepts⟩
    cases init with
    | nil => exact absurd hlen (by simp only [List.length_nil]; omega)
    | cons c init =>
      obtain ⟨rfl, rfl⟩ := List.cons_eq_cons.mp heq
      refine ⟨hinit b List.mem_cons_self, init, tenth, eleventh, rest, rfl, ?_, ?_, htenth,
        haccepts⟩
      · rw [List.length_cons] at hlen
        omega
      · exact fun d hd => hinit d (List.mem_cons_of_mem b hd)
  · rintro ⟨hb, init, tenth, eleventh, rest, rfl, hlen, hinit, htenth, haccepts⟩
    refine ⟨b :: init, tenth, eleventh, rest, rfl, ?_, ?_, htenth, haccepts⟩
    · rw [List.length_cons]
      omega
    · intro d hd
      rcases List.mem_cons.mp hd with rfl | hd
      · exact hb
      · exact hinit d hd

theorem overruns_nine_iff :
    Overruns accepts 9 (b :: p) ↔
      Continues b ∧ ∃ eleventh rest, p = eleventh :: rest ∧ accepts b eleventh := by
  constructor
  · rintro ⟨init, tenth, eleventh, rest, heq, hlen, hinit, htenth, haccepts⟩
    obtain rfl : init = [] := List.eq_nil_of_length_eq_zero (by omega)
    obtain ⟨rfl, rfl⟩ := List.cons_eq_cons.mp heq
    exact ⟨htenth, eleventh, rest, rfl, haccepts⟩
  · rintro ⟨hb, eleventh, rest, rfl, haccepts⟩
    exact ⟨[], b, eleventh, rest, rfl, rfl, by simp, hb, haccepts⟩

/-! ## Unsigned numbers -/

/-- The tenth group has one bit and the eleventh none. -/
def AcceptsUnsigned (tenth eleventh : UInt8) : Prop := group tenth ≤ 1 ∧ group eleventh = 0

variable {hasEnd : Bool} {Value : BitVec 64} {n : Nat}

theorem decodeULEB128Loop_cons (hasEnd : Bool) (n : Nat) (p : List UInt8) (hk : k ≤ 9) (hV : Value.toNat < 2 ^ (7 * k))
    (hgroup : k = 9 → group b ≤ 1) :
    ∃ Next : BitVec 64, Next.toNat = Value.toNat + group b * 2 ^ (7 * k) ∧
      (k < 9 → Next.toNat < 2 ^ (7 * (k + 1))) ∧
      decodeULEB128Loop hasEnd Value (7 * k) n (b :: p) =
        if Continues b then decodeULEB128Loop hasEnd Next (7 * (k + 1)) (n + 1) p
        else some ⟨Next, n + 1, none⟩ := by
  have hb := group_lt b
  have hsum := shifted_lt hV hb
  have hfits : Value.toNat + group b * 2 ^ (7 * k) < 2 ^ 64 := by
    by_cases hnine : k = 9
    · subst hnine
      omega
    · have hpow : 2 ^ (7 * (k + 1)) ≤ 2 ^ 63 := Nat.pow_le_pow_right (by decide) (by omega)
      omega
  have hshift := slice_shiftLeft_toNat b (Nat.lt_of_le_of_lt (Nat.le_add_left _ _) hfits)
  have hNext : (Value + slice b <<< (7 * k)).toNat = Value.toNat + group b * 2 ^ (7 * k) := by
    rw [BitVec.toNat_add, hshift, Nat.mod_eq_of_lt hfits]
  have hno : ¬(63 ≤ 7 * k ∧ ((7 * k = 63 ∧ (slice b <<< (7 * k)) >>> (7 * k) ≠ slice b) ∨
      (63 < 7 * k ∧ slice b ≠ 0))) := by
    rintro ⟨-, ⟨-, hne⟩ | ⟨hgt, -⟩⟩
    · apply hne
      apply BitVec.eq_of_toNat_eq
      rw [BitVec.toNat_ushiftRight, hshift, Nat.shiftRight_eq_div_pow, slice_toNat,
        Nat.mul_div_cancel _ (Nat.two_pow_pos _)]
    · omega
  refine ⟨_, hNext, fun _ => hNext ▸ hsum, ?_⟩
  rw [decodeULEB128Loop]
  simp only [if_neg hno, shl64_of_lt (by omega : 7 * k < 64), Option.bind_eq_bind,
    Option.bind_some]
  rfl

theorem decodeULEB128Loop_tenth (hgroup : ¬group b ≤ 1) :
    decodeULEB128Loop hasEnd Value (7 * 9) n (b :: p) =
      some ⟨0, n, some "uleb128 too big for uint64"⟩ := by
  have hyes : 63 ≤ 7 * 9 ∧ ((7 * 9 = 63 ∧ (slice b <<< (7 * 9)) >>> (7 * 9) ≠ slice b) ∨
      (63 < 7 * 9 ∧ slice b ≠ 0)) := by
    refine ⟨by decide, Or.inl ⟨rfl, ?_⟩⟩
    intro heq
    have hnat := congrArg BitVec.toNat heq
    rw [BitVec.toNat_ushiftRight, BitVec.toNat_shiftLeft, slice_toNat, Nat.shiftLeft_eq,
      Nat.shiftRight_eq_div_pow] at hnat
    omega
  rw [decodeULEB128Loop]
  exact if_pos hyes

theorem decodeULEB128Loop_eleventh :
    decodeULEB128Loop hasEnd Value (7 * 10) n (b :: p) =
      if group b = 0 then none else some ⟨0, n, some "uleb128 too big for uint64"⟩ := by
  have hzero : slice b = 0 ↔ group b = 0 := slice_eq_iff b (c := 0) (by decide)
  rw [decodeULEB128Loop]
  by_cases hb : group b = 0
  · have hno : ¬(63 ≤ 7 * 10 ∧ ((7 * 10 = 63 ∧ (slice b <<< (7 * 10)) >>> (7 * 10) ≠ slice b) ∨
        (63 < 7 * 10 ∧ slice b ≠ 0))) := by
      rintro ⟨-, ⟨h, -⟩ | ⟨-, hne⟩⟩
      · exact absurd h (by decide)
      · exact hne (hzero.mpr hb)
    rw [if_pos hb]
    refine (if_neg hno).trans ?_
    rw [shl64_of_ge (by decide)]
    rfl
  · have hyes : 63 ≤ 7 * 10 ∧ ((7 * 10 = 63 ∧ (slice b <<< (7 * 10)) >>> (7 * 10) ≠ slice b) ∨
        (63 < 7 * 10 ∧ slice b ≠ 0)) :=
      ⟨by decide, Or.inr ⟨by decide, fun h => hb (hzero.mp h)⟩⟩
    rw [if_neg hb]
    exact if_pos hyes

theorem decodeULEB128Loop_overruns (hV : Value.toNat < 2 ^ (7 * k))
    (h : Overruns AcceptsUnsigned k p) :
    decodeULEB128Loop hasEnd Value (7 * k) n p = none := by
  induction p generalizing k Value n with
  | nil =>
    obtain ⟨init, tenth, eleventh, rest, heq, -⟩ := h
    simp at heq
  | cons b p ih =>
    have hk : k ≤ 9 := by
      obtain ⟨init, tenth, eleventh, rest, heq, hlen, htail⟩ := h
      omega
    by_cases hnine : k = 9
    · subst hnine
      rw [overruns_nine_iff] at h
      obtain ⟨hb, eleventh, rest, rfl, htenth, heleventh⟩ := h
      obtain ⟨Next, -, -, hrun⟩ := decodeULEB128Loop_cons hasEnd n (eleventh :: rest) hk hV
        fun _ => htenth
      rw [hrun, if_pos hb, decodeULEB128Loop_eleventh, if_pos heleventh]
    · rw [overruns_cons_iff (by omega)] at h
      obtain ⟨Next, -, hlt, hrun⟩ := decodeULEB128Loop_cons hasEnd n p (b := b) hk hV
        fun hnine' => absurd hnine' hnine
      rw [hrun, if_pos h.1]
      exact ih (hlt (by omega)) h.2

/-- An error, or the unsigned number at the start of the bytes above the groups before it. -/
def ReadsUnsigned (low : Nat) (k n : Nat) (p : List UInt8) (r : Decoded) : Prop :=
  r.error ≠ none ∨ r.error = none ∧ ∃ num tail, p = num ++ tail ∧ Terminated num ∧
    r.value.toNat = low + unsignedValue num * 2 ^ (7 * k) ∧ r.n = n + num.length

theorem two_pow_groups (k : Nat) : 2 ^ (7 * (k + 1)) = 128 * 2 ^ (7 * k) := by
  rw [Nat.mul_add, Nat.pow_add, Nat.mul_comm]

theorem ReadsUnsigned.cons {low : Nat} {r : Decoded} (hb : Continues b)
    (h : ReadsUnsigned (low + group b * 2 ^ (7 * k)) (k + 1) (n + 1) p r) :
    ReadsUnsigned low k n (b :: p) r := by
  rcases h with herror | ⟨hnone, num, tail, rfl, hnum, hvalue, hn⟩
  · exact Or.inl herror
  · refine Or.inr ⟨hnone, b :: num, tail, rfl, hnum.cons hb, ?_, ?_⟩
    · rw [hvalue, unsignedValue, two_pow_groups]
      ring
    · rw [hn, List.length_cons]
      omega

theorem decodeULEB128Loop_reads (hk : k ≤ 9) (hV : Value.toNat < 2 ^ (7 * k))
    (h : ¬Overruns AcceptsUnsigned k p) :
    ∃ r, decodeULEB128Loop true Value (7 * k) n p = some r ∧
      ReadsUnsigned Value.toNat k n p r := by
  induction p generalizing k Value n with
  | nil => exact ⟨_, rfl, Or.inl (by simp)⟩
  | cons b p ih =>
    by_cases hgroup : k = 9 → group b ≤ 1
    · obtain ⟨Next, hNext, hlt, hrun⟩ := decodeULEB128Loop_cons true n p hk hV hgroup
      rw [hrun]
      by_cases hb : Continues b
      · rw [if_pos hb]
        by_cases hnine : k = 9
        · subst hnine
          cases p with
          | nil => exact ⟨_, rfl, Or.inl (by simp)⟩
          | cons eleventh rest =>
            have hne : group eleventh ≠ 0 := by
              intro hzero
              exact h (overruns_nine_iff.mpr ⟨hb, eleventh, rest, rfl, hgroup rfl, hzero⟩)
            rw [decodeULEB128Loop_eleventh, if_neg hne]
            exact ⟨_, rfl, Or.inl (by simp)⟩
        · have hrest : ¬Overruns AcceptsUnsigned (k + 1) p := by
            intro hover
            exact h ((overruns_cons_iff (by omega)).mpr ⟨hb, hover⟩)
          obtain ⟨r, hr, hreads⟩ := ih (n := n + 1) (by omega) (hlt (by omega)) hrest
          rw [hNext] at hreads
          exact ⟨r, hr, hreads.cons hb⟩
      · rw [if_neg hb]
        refine ⟨_, rfl, Or.inr ⟨rfl, [b], p, rfl, Terminated.singleton hb, ?_, rfl⟩⟩
        rw [hNext, unsignedValue, unsignedValue]
        rfl
    · obtain ⟨rfl, htenth⟩ := Classical.not_imp.mp hgroup
      exact ⟨_, decodeULEB128Loop_tenth htenth, Or.inl (by simp)⟩

theorem decodeULEB128Loop_number (hV : Value.toNat < 2 ^ (7 * k)) (hnum : Terminated num)
    (hlen : k + num.length ≤ 10) {v : BitVec 64}
    (hvalue : v.toNat = Value.toNat + unsignedValue num * 2 ^ (7 * k)) (tail : List UInt8) :
    decodeULEB128Loop hasEnd Value (7 * k) n (num ++ tail) = some ⟨v, n + num.length, none⟩ := by
  induction num generalizing k Value n with
  | nil => exact absurd rfl hnum.ne_nil
  | cons b num ih =>
    rw [List.length_cons] at hlen
    rw [unsignedValue] at hvalue
    have hgroup : k = 9 → group b ≤ 1 := by
      rintro rfl
      have hlt := v.isLt
      omega
    obtain ⟨Next, hNext, hlt, hrun⟩ :=
      decodeULEB128Loop_cons hasEnd n (num ++ tail) (by omega) hV hgroup
    rw [List.cons_append, hrun]
    rcases hnum.cases with ⟨rfl, hb⟩ | ⟨hb, hrest⟩
    · rw [if_neg hb]
      have heq : Next = v := by
        apply BitVec.eq_of_toNat_eq
        rw [hNext, hvalue, unsignedValue]
        rfl
      rw [heq]
      rfl
    · have hpos : 0 < num.length := List.length_pos_iff.mpr hrest.ne_nil
      rw [if_pos hb, ih (hlt (by omega)) hrest (by omega), List.length_cons, Nat.add_assoc,
        Nat.add_comm 1]
      rw [hvalue, hNext, two_pow_groups]
      ring

/-! ## Signed numbers -/

/-- The tenth group is a sign, and the eleventh repeats it. -/
def AcceptsSigned (tenth eleventh : UInt8) : Prop :=
  (group tenth = 0 ∨ group tenth = 127) ∧ group eleventh = group tenth

theorem toNat_or_of_lt {y : BitVec 64} {a : Nat} (hx : x.toNat < 2 ^ S) (hy : y.toNat = a * 2 ^ S) :
    (x ||| y).toNat = x.toNat + a * 2 ^ S := by
  rw [BitVec.toNat_or, hy, ← Nat.shiftLeft_eq, Nat.or_comm, ← Nat.shiftLeft_add_eq_or_of_lt hx,
    Nat.add_comm]

theorem allOnes_shiftLeft_toNat (hS : S < 64) :
    (BitVec.allOnes 64 <<< S).toNat = (2 ^ (64 - S) - 1) * 2 ^ S := by
  have hpow : 2 ^ 64 = 2 ^ (64 - S) * 2 ^ S := by
    rw [← Nat.pow_add, Nat.sub_add_cancel (Nat.le_of_lt hS)]
  have hpos := Nat.two_pow_pos S
  have hsub : (2 ^ 64 - 1) * 2 ^ S = (2 ^ (64 - S) - 1) * 2 ^ S + 2 ^ 64 * (2 ^ S - 1) := by
    rw [Nat.sub_mul, Nat.sub_mul, Nat.mul_sub, ← hpow]
    have hle : 2 ^ S ≤ 2 ^ 64 := Nat.pow_le_pow_right (by decide) (Nat.le_of_lt hS)
    omega
  rw [BitVec.toNat_shiftLeft, BitVec.toNat_allOnes, Nat.shiftLeft_eq, hsub, Nat.add_mul_mod_self_left,
    Nat.mod_eq_of_lt]
  rw [Nat.sub_mul, ← hpow]
  omega

theorem signExtend_toInt (hS : S < 64) (hx : x.toNat < 2 ^ S) :
    (x ||| BitVec.allOnes 64 <<< S).toInt = x.toNat - 2 ^ S := by
  have hpow : 2 ^ 64 = 2 ^ (64 - S) * 2 ^ S := by
    rw [← Nat.pow_add, Nat.sub_add_cancel (Nat.le_of_lt hS)]
  have hle : 2 ^ S ≤ 2 ^ 63 := Nat.pow_le_pow_right (by decide) (by omega)
  have hor := toNat_or_of_lt hx (allOnes_shiftLeft_toNat hS)
  rw [Nat.sub_mul, ← hpow, Nat.one_mul] at hor
  have hcast : ((2 ^ S : Nat) : Int) = 2 ^ S := by push_cast; rfl
  have hcases := toInt_cases (x ||| BitVec.allOnes 64 <<< S)
  rw [← hcast]
  omega

theorem decodeSLEB128Loop_cons (hasEnd : Bool) (n : Nat) (p : List UInt8) (hk : k ≤ 9)
    (hV : Value.toNat < 2 ^ (7 * k)) (hgroup : k = 9 → group b = 0 ∨ group b = 127) :
    ∃ Next Last : BitVec 64,
      (k < 9 → Next.toNat = Value.toNat + group b * 2 ^ (7 * k) ∧
        Next.toNat < 2 ^ (7 * (k + 1))) ∧
      (k = 9 → (Next.slt 0 = true ↔ group b = 127)) ∧
      Last.toInt = Value.toNat + signedGroup b * 2 ^ (7 * k) ∧
      decodeSLEB128Loop hasEnd Value (7 * k) n (b :: p) =
        if Continues b then decodeSLEB128Loop hasEnd Next (7 * (k + 1)) (n + 1) p
        else some ⟨Last, n + 1, none⟩ := by
  have hb := group_lt b
  have hno : ¬(63 ≤ 7 * k ∧ ((7 * k = 63 ∧ slice b ≠ 0 ∧ slice b ≠ 0x7f) ∨
      (63 < 7 * k ∧ slice b ≠ if Value.slt 0 then 0x7f else 0x00))) := by
    rintro ⟨-, ⟨h63, hzero, hones⟩ | ⟨hgt, -⟩⟩
    · rcases hgroup (by omega) with h | h
      · exact hzero ((slice_eq_iff b (c := 0) (by decide)).mpr h)
      · exact hones ((slice_eq_iff b (c := 127) (by decide)).mpr h)
    · omega
  by_cases hnine : k = 9
  · subst hnine
    have hshift : (slice b <<< (7 * 9)).toNat = group b % 2 * 2 ^ (7 * 9) := by
      rw [BitVec.toNat_shiftLeft, slice_toNat, Nat.shiftLeft_eq]
      omega
    have hNext := toNat_or_of_lt hV hshift
    have hcases := toInt_cases (Value ||| slice b <<< (7 * 9))
    refine ⟨Value ||| slice b <<< (7 * 9), Value ||| slice b <<< (7 * 9), ?_, ?_, ?_, ?_⟩
    · intro hlt
      exact absurd hlt (Nat.lt_irrefl 9)
    · intro _
      have hzero : (0 : BitVec 64).toInt = 0 := rfl
      rw [BitVec.slt_iff_toInt_lt, hzero]
      rcases hgroup rfl with hgrp | hgrp
      · rw [hgrp] at hNext ⊢
        omega
      · rw [hgrp] at hNext ⊢
        omega
    · unfold signedGroup
      rcases hgroup rfl with hgrp | hgrp
      · rw [hgrp] at hNext ⊢
        rw [if_neg (by decide)]
        omega
      · rw [hgrp] at hNext ⊢
        rw [if_pos (by decide)]
        omega
    · rw [decodeSLEB128Loop]
      refine (if_neg hno).trans ?_
      rw [shl64_of_lt (by decide)]
      rfl
  · have hsum := shifted_lt hV hb
    have hpow : 2 ^ (7 * (k + 1)) ≤ 2 ^ 63 := Nat.pow_le_pow_right (by decide) (by omega)
    have hshift := slice_shiftLeft_toNat b (s := 7 * k) (by omega)
    have hNext := toNat_or_of_lt hV hshift
    rw [← hNext] at hsum
    refine ⟨Value ||| slice b <<< (7 * k), if b &&& 0x40 ≠ 0 then
      Value ||| slice b <<< (7 * k) ||| BitVec.allOnes 64 <<< (7 * (k + 1))
      else Value ||| slice b <<< (7 * k), ?_, ?_, ?_, ?_⟩
    · exact fun _ => ⟨hNext, hsum⟩
    · intro h
      exact absurd h hnine
    · have hcast : ((2 ^ (7 * k) : Nat) : Int) = 2 ^ (7 * k) := by push_cast; rfl
      have hgroups := two_pow_groups k
      have hbit : b &&& 0x40 ≠ 0 ↔ 64 ≤ group b := by
        rw [ne_eq, byte_and_40, Nat.not_lt]
      unfold signedGroup
      by_cases hneg : 64 ≤ group b
      · rw [if_pos (hbit.mpr hneg), if_pos hneg, signExtend_toInt (by omega) hsum, hNext]
        have hcast' : ((2 : Int) ^ (7 * (k + 1))) = 128 * 2 ^ (7 * k) := by exact_mod_cast hgroups
        rw [hcast']
        push_cast
        ring
      · rw [if_neg (fun h => hneg (hbit.mp h)), if_neg hneg]
        have hcases := toInt_cases (Value ||| slice b <<< (7 * k))
        rw [← hcast, ← Nat.cast_mul, ← Nat.cast_add, ← hNext]
        omega
    · rw [decodeSLEB128Loop]
      refine (if_neg hno).trans ?_
      rw [shl64_of_lt (by omega)]
      simp only [Option.bind_eq_bind, Option.bind_some, (by omega : 7 * k + 7 < 64), true_and]
      rfl

theorem decodeSLEB128Loop_tenth (hgroup : ¬(group b = 0 ∨ group b = 127)) :
    decodeSLEB128Loop hasEnd Value (7 * 9) n (b :: p) =
      some ⟨0, n, some "sleb128 too big for int64"⟩ := by
  have hyes : 63 ≤ 7 * 9 ∧ ((7 * 9 = 63 ∧ slice b ≠ 0 ∧ slice b ≠ 0x7f) ∨
      (63 < 7 * 9 ∧ slice b ≠ if Value.slt 0 then 0x7f else 0x00)) := by
    refine ⟨by decide, Or.inl ⟨rfl, ?_, ?_⟩⟩
    · exact fun h => hgroup (Or.inl ((slice_eq_iff b (c := 0) (by decide)).mp h))
    · exact fun h => hgroup (Or.inr ((slice_eq_iff b (c := 127) (by decide)).mp h))
  rw [decodeSLEB128Loop]
  exact if_pos hyes

theorem decodeSLEB128Loop_eleventh :
    decodeSLEB128Loop hasEnd Value (7 * 10) n (b :: p) =
      if group b = (if Value.slt 0 then 127 else 0) then none
      else some ⟨0, n, some "sleb128 too big for int64"⟩ := by
  have hsign : (slice b = if Value.slt 0 then 0x7f else 0x00) ↔
      group b = if Value.slt 0 then 127 else 0 := by
    split
    · exact slice_eq_iff b (c := 127) (by decide)
    · exact slice_eq_iff b (c := 0) (by decide)
  rw [decodeSLEB128Loop]
  by_cases hb : group b = if Value.slt 0 then 127 else 0
  · have hno : ¬(63 ≤ 7 * 10 ∧ ((7 * 10 = 63 ∧ slice b ≠ 0 ∧ slice b ≠ 0x7f) ∨
        (63 < 7 * 10 ∧ slice b ≠ if Value.slt 0 then 0x7f else 0x00))) := by
      rintro ⟨-, ⟨h, -⟩ | ⟨-, hne⟩⟩
      · exact absurd h (by decide)
      · exact hne (hsign.mpr hb)
    rw [if_pos hb]
    refine (if_neg hno).trans ?_
    rw [shl64_of_ge (by decide)]
    rfl
  · have hyes : 63 ≤ 7 * 10 ∧ ((7 * 10 = 63 ∧ slice b ≠ 0 ∧ slice b ≠ 0x7f) ∨
        (63 < 7 * 10 ∧ slice b ≠ if Value.slt 0 then 0x7f else 0x00)) :=
      ⟨by decide, Or.inr ⟨by decide, fun h => hb (hsign.mp h)⟩⟩
    rw [if_neg hb]
    exact if_pos hyes

theorem sign_of_tenth {Next : BitVec 64} (hsign : Next.slt 0 = true ↔ group b = 127)
    (hgroup : group b = 0 ∨ group b = 127) :
    (if Next.slt 0 then 127 else 0) = group b := by
  rcases hgroup with h | h
  · rw [if_neg (fun hneg => by rw [hsign.mp hneg] at h; exact absurd h (by decide)), h]
  · rw [if_pos (hsign.mpr h), h]

theorem decodeSLEB128Loop_overruns (hV : Value.toNat < 2 ^ (7 * k))
    (h : Overruns AcceptsSigned k p) :
    decodeSLEB128Loop hasEnd Value (7 * k) n p = none := by
  induction p generalizing k Value n with
  | nil =>
    obtain ⟨init, tenth, eleventh, rest, heq, -⟩ := h
    simp at heq
  | cons b p ih =>
    have hk : k ≤ 9 := by
      obtain ⟨init, tenth, eleventh, rest, heq, hlen, htail⟩ := h
      omega
    by_cases hnine : k = 9
    · subst hnine
      rw [overruns_nine_iff] at h
      obtain ⟨hb, eleventh, rest, rfl, htenth, heleventh⟩ := h
      obtain ⟨Next, Last, -, hsign, -, hrun⟩ := decodeSLEB128Loop_cons hasEnd n
        (eleventh :: rest) hk hV fun _ => htenth
      rw [hrun, if_pos hb, decodeSLEB128Loop_eleventh, sign_of_tenth (hsign rfl) htenth,
        if_pos heleventh]
    · rw [overruns_cons_iff (by omega)] at h
      obtain ⟨Next, Last, hlt, -, -, hrun⟩ := decodeSLEB128Loop_cons hasEnd n p (b := b) hk hV
        fun hnine' => absurd hnine' hnine
      rw [hrun, if_pos h.1]
      exact ih (hlt (by omega)).2 h.2

/-- An error, or the signed number at the start of the bytes above the groups before it. -/
def ReadsSigned (low : Int) (k n : Nat) (p : List UInt8) (r : Decoded) : Prop :=
  r.error ≠ none ∨ r.error = none ∧ ∃ num tail, p = num ++ tail ∧ Terminated num ∧
    r.value.toInt = low + signedValue num * 2 ^ (7 * k) ∧ r.n = n + num.length

theorem int_two_pow_groups (k : Nat) : (2 : Int) ^ (7 * (k + 1)) = 128 * 2 ^ (7 * k) := by
  exact_mod_cast two_pow_groups k

theorem ReadsSigned.cons {low : Int} {r : Decoded} (hb : Continues b)
    (h : ReadsSigned (low + group b * 2 ^ (7 * k)) (k + 1) (n + 1) p r) :
    ReadsSigned low k n (b :: p) r := by
  rcases h with herror | ⟨hnone, num, tail, rfl, hnum, hvalue, hn⟩
  · exact Or.inl herror
  · refine Or.inr ⟨hnone, b :: num, tail, rfl, hnum.cons hb, ?_, ?_⟩
    · rw [hvalue, signedValue_cons hnum.ne_nil, int_two_pow_groups]
      ring
    · rw [hn, List.length_cons]
      omega

theorem decodeSLEB128Loop_reads (hk : k ≤ 9) (hV : Value.toNat < 2 ^ (7 * k))
    (h : ¬Overruns AcceptsSigned k p) :
    ∃ r, decodeSLEB128Loop true Value (7 * k) n p = some r ∧ ReadsSigned Value.toNat k n p r := by
  induction p generalizing k Value n with
  | nil => exact ⟨_, rfl, Or.inl (by simp)⟩
  | cons b p ih =>
    by_cases hgroup : k = 9 → group b = 0 ∨ group b = 127
    · obtain ⟨Next, Last, hlt, hsign, hLast, hrun⟩ :=
        decodeSLEB128Loop_cons true n p hk hV hgroup
      rw [hrun]
      by_cases hb : Continues b
      · rw [if_pos hb]
        by_cases hnine : k = 9
        · subst hnine
          cases p with
          | nil => exact ⟨_, rfl, Or.inl (by simp)⟩
          | cons eleventh rest =>
            have hne : group eleventh ≠ group b := by
              intro heq
              exact h (overruns_nine_iff.mpr ⟨hb, eleventh, rest, rfl, hgroup rfl, heq⟩)
            rw [decodeSLEB128Loop_eleventh, sign_of_tenth (hsign rfl) (hgroup rfl), if_neg hne]
            exact ⟨_, rfl, Or.inl (by simp)⟩
        · have hrest : ¬Overruns AcceptsSigned (k + 1) p := by
            intro hover
            exact h ((overruns_cons_iff (by omega)).mpr ⟨hb, hover⟩)
          obtain ⟨hNext, hbound⟩ := hlt (by omega)
          obtain ⟨r, hr, hreads⟩ := ih (n := n + 1) (by omega) hbound hrest
          rw [hNext] at hreads
          exact ⟨r, hr, hreads.cons hb⟩
      · rw [if_neg hb]
        exact ⟨_, rfl, Or.inr ⟨rfl, [b], p, rfl, Terminated.singleton hb, hLast, rfl⟩⟩
    · obtain ⟨rfl, htenth⟩ := Classical.not_imp.mp hgroup
      exact ⟨_, decodeSLEB128Loop_tenth htenth, Or.inl (by simp)⟩

theorem decodeSLEB128Loop_number (hV : Value.toNat < 2 ^ (7 * k)) (hnum : Terminated num)
    (hlen : k + num.length ≤ 10) {v : BitVec 64}
    (hvalue : v.toInt = Value.toNat + signedValue num * 2 ^ (7 * k)) (tail : List UInt8) :
    decodeSLEB128Loop hasEnd Value (7 * k) n (num ++ tail) = some ⟨v, n + num.length, none⟩ := by
  induction num generalizing k Value n with
  | nil => exact absurd rfl hnum.ne_nil
  | cons b num ih =>
    rw [List.length_cons] at hlen
    have hgroup : k = 9 → group b = 0 ∨ group b = 127 := by
      rintro rfl
      obtain rfl : num = [] := List.eq_nil_of_length_eq_zero (by omega)
      have hb := group_lt b
      have hcases := toInt_cases v
      have hlt := v.isLt
      rw [signedValue, signedGroup] at hvalue
      split at hvalue
      · omega
      · omega
    obtain ⟨Next, Last, hlt, -, hLast, hrun⟩ :=
      decodeSLEB128Loop_cons hasEnd n (num ++ tail) (by omega) hV hgroup
    rw [List.cons_append, hrun]
    rcases hnum.cases with ⟨rfl, hb⟩ | ⟨hb, hrest⟩
    · rw [if_neg hb]
      have heq : Last = v := by
        rw [← BitVec.toInt_inj, hLast, hvalue, signedValue]
      rw [heq]
      rfl
    · have hpos : 0 < num.length := List.length_pos_iff.mpr hrest.ne_nil
      obtain ⟨hNext, hbound⟩ := hlt (by omega)
      rw [if_pos hb, ih hbound hrest (by omega), List.length_cons, Nat.add_assoc,
        Nat.add_comm 1]
      rw [hvalue, hNext, signedValue_cons hrest.ne_nil, int_two_pow_groups]
      push_cast
      ring

theorem overruns_of_unsigned (h : Terminated num) (hlen : 11 ≤ num.length)
    (hvalue : unsignedValue num < 2 ^ 64) (tail : List UInt8) :
    Overruns AcceptsUnsigned 0 (num ++ tail) := by
  obtain ⟨init, tenth, rest, rfl, hinit, hcont, htenth, hrest⟩ :=
    h.split (by omega : 9 + 1 < num.length)
  cases rest with
  | nil => exact absurd rfl hrest.ne_nil
  | cons eleventh rest =>
    rw [unsignedValue_append, unsignedValue, unsignedValue, hinit] at hvalue
    refine ⟨init, tenth, eleventh, rest ++ tail, ?_, ?_, hcont, htenth, ?_⟩
    · rw [List.append_assoc, List.cons_append, List.cons_append]
    · rw [hinit]
    · unfold AcceptsUnsigned
      omega

theorem group_of_signedValue {b : UInt8} {rest : List UInt8} {s : Int} (hs : s = 0 ∨ s = -1)
    (h : signedValue (b :: rest) = s) : (group b : Int) = -127 * s := by
  have hb := group_lt b
  cases rest with
  | nil =>
    rw [signedValue, signedGroup] at h
    split at h <;> omega
  | cons c rest =>
    rw [signedValue_cons (by simp)] at h
    omega

theorem overruns_of_signed (h : Terminated num) (hlen : 11 ≤ num.length) {Value : BitVec 64}
    (hvalue : signedValue num = Value.toInt) (tail : List UInt8) :
    Overruns AcceptsSigned 0 (num ++ tail) := by
  obtain ⟨init, tenth, rest, rfl, hinit, hcont, htenth, hrest⟩ :=
    h.split (by omega : 9 + 1 < num.length)
  cases rest with
  | nil => exact absurd rfl hrest.ne_nil
  | cons eleventh rest =>
    have hlow := unsignedValue_lt init
    have hcases := toInt_cases Value
    rw [signedValue_append (by simp), hinit] at hvalue
    rw [hinit] at hlow
    have hsign : signedValue (tenth :: eleventh :: rest) = 0 ∨
        signedValue (tenth :: eleventh :: rest) = -1 := by
      omega
    have htenth' := group_of_signedValue hsign rfl
    have heq : signedValue (tenth :: eleventh :: rest) =
        group tenth + 128 * signedValue (eleventh :: rest) := rfl
    have hnext : (group eleventh : Int) = -127 * signedValue (eleventh :: rest) :=
      group_of_signedValue (by omega) rfl
    refine ⟨init, tenth, eleventh, rest ++ tail, ?_, ?_, hcont, htenth, ?_, ?_⟩
    · rw [List.append_assoc, List.cons_append, List.cons_append]
    · rw [hinit]
    · omega
    · omega

/-! ## The codec -/

/-- Both encoders emit one number, of the length that the value and the padding ask for. -/
def EncodesSigned (Value : BitVec 64) (PadTo : BitVec 32) (num : List UInt8) : Prop :=
  (∀ OS, Stream.encodeSLEB128 Value OS PadTo = (num.length, OS ++ num)) ∧
  (∀ start, ∃ b, Buffer.encodeSLEB128 Value start PadTo = (num.length, b) ∧ start.Wrote b num) ∧
  Stream.SignedNumber Value.toInt PadTo.toNat num

def EncodesUnsigned (Value : BitVec 64) (PadTo : BitVec 32) (num : List UInt8) : Prop :=
  (∀ OS, Stream.encodeULEB128 Value OS PadTo = (num.length, OS ++ num)) ∧
  (∀ start, ∃ b, Buffer.encodeULEB128 Value start PadTo = (num.length, b) ∧ start.Wrote b num) ∧
  Stream.UnsignedNumber Value.toNat PadTo.toNat num

theorem encodesSigned (Value : BitVec 64) (PadTo : BitVec 32) :
    ∃ num, EncodesSigned Value PadTo num := by
  obtain ⟨num, hstream, hnum⟩ := Stream.encodeSLEB128_spec Value PadTo
  exact ⟨num, hstream, fun start => Buffer.encodeSLEB128_spec Value start PadTo (hstream []), hnum⟩

theorem encodesUnsigned (Value : BitVec 64) (PadTo : BitVec 32) :
    ∃ num, EncodesUnsigned Value PadTo num := by
  obtain ⟨num, hstream, hnum⟩ := Stream.encodeULEB128_spec Value PadTo
  exact ⟨num, hstream, fun start => Buffer.encodeULEB128_spec Value start PadTo (hstream []), hnum⟩

theorem EncodesSigned.unique {Value : BitVec 64} {PadTo : BitVec 32} {num' : List UInt8}
    (h : EncodesSigned Value PadTo num) (h' : EncodesSigned Value PadTo num') : num = num' :=
  (Prod.mk.inj ((h.1 []).symm.trans (h'.1 []))).2

theorem EncodesUnsigned.unique {Value : BitVec 64} {PadTo : BitVec 32} {num' : List UInt8}
    (h : EncodesUnsigned Value PadTo num) (h' : EncodesUnsigned Value PadTo num') : num = num' :=
  (Prod.mk.inj ((h.1 []).symm.trans (h'.1 []))).2

/-- The decoder reads what the encoders emit, whatever follows. -/
def RoundTripsSigned (Value : BitVec 64) (PadTo : BitVec 32) : Prop :=
  ∃ num, EncodesSigned Value PadTo num ∧
    ∀ hasEnd tail, decodeSLEB128 hasEnd (num ++ tail) = some ⟨Value, num.length, none⟩

def RoundTripsUnsigned (Value : BitVec 64) (PadTo : BitVec 32) : Prop :=
  ∃ num, EncodesUnsigned Value PadTo num ∧
    ∀ hasEnd tail, decodeULEB128 hasEnd (num ++ tail) = some ⟨Value, num.length, none⟩

theorem roundTripsSigned_iff (Value : BitVec 64) (PadTo : BitVec 32) :
    RoundTripsSigned Value PadTo ↔ PadTo.toNat ≤ 10 := by
  obtain ⟨num, hnum⟩ := encodesSigned Value PadTo
  obtain ⟨hterm, hvalue, ⟨m, -, hlen⟩, hshort⟩ := hnum.2.2
  constructor
  · rintro ⟨num', hnum', hread⟩
    obtain rfl := hnum.unique hnum'
    by_contra hlong
    have hover : decodeSLEB128 true (num ++ []) = none :=
      decodeSLEB128Loop_overruns (by decide) (overruns_of_signed hterm (by omega) hvalue [])
    exact nomatch hover.symm.trans (hread true [])
  · intro hpad
    refine ⟨num, hnum, ?_⟩
    intro hasEnd tail
    have hfits : Value.toInt = (0 : BitVec 64).toNat + signedValue num * 2 ^ (7 * 0) := by
      rw [hvalue]
      simp
    have hread : decodeSLEB128 hasEnd (num ++ tail) = some ⟨Value, 0 + num.length, none⟩ :=
      decodeSLEB128Loop_number (by decide) hterm (by omega) hfits tail
    rw [Nat.zero_add] at hread
    exact hread

theorem roundTripsUnsigned_iff (Value : BitVec 64) (PadTo : BitVec 32) :
    RoundTripsUnsigned Value PadTo ↔ PadTo.toNat ≤ 10 := by
  obtain ⟨num, hnum⟩ := encodesUnsigned Value PadTo
  obtain ⟨hterm, hvalue, ⟨m, -, hlen⟩, hshort⟩ := hnum.2.2
  constructor
  · rintro ⟨num', hnum', hread⟩
    obtain rfl := hnum.unique hnum'
    by_contra hlong
    have hover : decodeULEB128 true (num ++ []) = none :=
      decodeULEB128Loop_overruns (by decide) (overruns_of_unsigned hterm (by omega) (hvalue ▸ Value.isLt) [])
    exact nomatch hover.symm.trans (hread true [])
  · intro hpad
    refine ⟨num, hnum, ?_⟩
    intro hasEnd tail
    have hfits : Value.toNat = (0 : BitVec 64).toNat + unsignedValue num * 2 ^ (7 * 0) := by
      rw [hvalue]
      simp
    have hread : decodeULEB128 hasEnd (num ++ tail) = some ⟨Value, 0 + num.length, none⟩ :=
      decodeULEB128Loop_number (by decide) hterm (by omega) hfits tail
    rw [Nat.zero_add] at hread
    exact hread

/-- A defined result: an error, or the number at the start of the bytes, which fits. -/
def DecodesSigned (p : List UInt8) : Prop :=
  ∃ r, decodeSLEB128 true p = some r ∧ (r.error ≠ none ∨ r.error = none ∧
    ∃ num tail, p = num ++ tail ∧ Terminated num ∧ r.value.toInt = signedValue num ∧
      r.n = num.length)

def DecodesUnsigned (p : List UInt8) : Prop :=
  ∃ r, decodeULEB128 true p = some r ∧ (r.error ≠ none ∨ r.error = none ∧
    ∃ num tail, p = num ++ tail ∧ Terminated num ∧ r.value.toNat = unsignedValue num ∧
      r.n = num.length)

theorem decodesSigned_iff (p : List UInt8) :
    DecodesSigned p ↔ ¬Overruns AcceptsSigned 0 p := by
  constructor
  · rintro ⟨r, hr, -⟩ hover
    exact nomatch (decodeSLEB128Loop_overruns (by decide) hover).symm.trans hr
  · intro hover
    obtain ⟨r, hr, hreads⟩ : ∃ r, decodeSLEB128 true p = some r ∧ ReadsSigned 0 0 0 p r :=
      decodeSLEB128Loop_reads (by decide) (by decide) hover
    refine ⟨r, hr, ?_⟩
    rcases hreads with herror | ⟨hnone, num, tail, heq, hnum, hvalue, hn⟩
    · exact Or.inl herror
    · refine Or.inr ⟨hnone, num, tail, heq, hnum, ?_, ?_⟩
      · rw [hvalue, Nat.mul_zero, pow_zero, mul_one, zero_add]
      · rw [hn, Nat.zero_add]

theorem decodesUnsigned_iff (p : List UInt8) :
    DecodesUnsigned p ↔ ¬Overruns AcceptsUnsigned 0 p := by
  constructor
  · rintro ⟨r, hr, -⟩ hover
    exact nomatch (decodeULEB128Loop_overruns (by decide) hover).symm.trans hr
  · intro hover
    obtain ⟨r, hr, hreads⟩ : ∃ r, decodeULEB128 true p = some r ∧ ReadsUnsigned 0 0 0 p r :=
      decodeULEB128Loop_reads (by decide) (by decide) hover
    refine ⟨r, hr, ?_⟩
    rcases hreads with herror | ⟨hnone, num, tail, heq, hnum, hvalue, hn⟩
    · exact Or.inl herror
    · refine Or.inr ⟨hnone, num, tail, heq, hnum, ?_, ?_⟩
      · rw [hvalue, Nat.mul_zero, pow_zero, mul_one, zero_add]
      · rw [hn, Nat.zero_add]

/--
The encoders agree and emit what they should for every padding. What they emit
is read back up to ten bytes, and a byte string is decoded unless it reaches an
eleventh group that is shifted by 70.
-/
theorem codec_exact (Value : BitVec 64) (PadTo : BitVec 32) (p : List UInt8) :
    ((∃ num, EncodesSigned Value PadTo num) ∧
      (RoundTripsSigned Value PadTo ↔ PadTo.toNat ≤ 10)) ∧
    ((∃ num, EncodesUnsigned Value PadTo num) ∧
      (RoundTripsUnsigned Value PadTo ↔ PadTo.toNat ≤ 10)) ∧
    (DecodesSigned p ↔ ¬Overruns AcceptsSigned 0 p) ∧
    (DecodesUnsigned p ↔ ¬Overruns AcceptsUnsigned 0 p) :=
  ⟨⟨encodesSigned Value PadTo, roundTripsSigned_iff Value PadTo⟩,
    ⟨encodesUnsigned Value PadTo, roundTripsUnsigned_iff Value PadTo⟩,
    decodesSigned_iff p, decodesUnsigned_iff p⟩

/-- Zero padded to eleven bytes: its last byte is shifted by 70. -/
theorem padded_zero_overruns :
    (∃ OS, Stream.encodeULEB128 0 [] 11 = (11, OS) ∧ decodeULEB128 true OS = none) ∧
      ¬RoundTripsUnsigned 0 11 := by
  have hencode : Stream.encodeULEB128 0 [] 11 = (11, List.replicate 10 0x80 ++ [0x00]) := by
    have hloop : Stream.encodeULEB128Loop 11 0 0 [] = (1, [0x80]) := by
      rw [Stream.encodeULEB128Loop]
      rfl
    unfold Stream.encodeULEB128
    rw [hloop]
    rfl
  refine ⟨⟨_, hencode, by decide⟩, ?_⟩
  rw [roundTripsUnsigned_iff]
  decide

/-!
## The bytes of a number

What is copied from a buffer after one of the encoders has filled it, and that
the decoders read it back.
-/

/-- The bytes from `Buf` to `Buf + encodeULEB128(Value, Buf)`. -/
def uleb128 (Value : BitVec 64) : List UInt8 :=
  let (n, Buf) := Buffer.encodeULEB128 Value ⟨fun _ => 0, 0⟩ 0
  (List.range n).map Buf.mem

/-- The bytes from `Buf` to `Buf + encodeSLEB128(Value, Buf)`. -/
def sleb128 (Value : BitVec 64) : List UInt8 :=
  let (n, Buf) := Buffer.encodeSLEB128 Value ⟨fun _ => 0, 0⟩ 0
  (List.range n).map Buf.mem

theorem written_eq {start Buf : Buffer} (hstart : start.p = 0) (h : start.Wrote Buf num) :
    (List.range num.length).map Buf.mem = num := by
  apply List.ext_getElem
  · simp
  · intro i h₁ h₂
    have hinside := h.inside i h₂
    rw [hstart, Nat.zero_add] at hinside
    simp [hinside]

theorem decodeULEB128_uleb128 (Value : BitVec 64) (hasEnd : Bool) (tail : List UInt8) :
    decodeULEB128 hasEnd (uleb128 Value ++ tail) =
      some ⟨Value, (uleb128 Value).length, none⟩ := by
  obtain ⟨num, ⟨-, hbuffer, -⟩, hread⟩ := (roundTripsUnsigned_iff Value 0).mpr (by decide)
  obtain ⟨Buf, hencode, hwrote⟩ := hbuffer ⟨fun _ => 0, 0⟩
  have hnum : uleb128 Value = num := by
    unfold uleb128
    rw [hencode]
    exact written_eq rfl hwrote
  rw [hnum]
  exact hread hasEnd tail

theorem decodeSLEB128_sleb128 (Value : BitVec 64) (hasEnd : Bool) (tail : List UInt8) :
    decodeSLEB128 hasEnd (sleb128 Value ++ tail) =
      some ⟨Value, (sleb128 Value).length, none⟩ := by
  obtain ⟨num, ⟨-, hbuffer, -⟩, hread⟩ := (roundTripsSigned_iff Value 0).mpr (by decide)
  obtain ⟨Buf, hencode, hwrote⟩ := hbuffer ⟨fun _ => 0, 0⟩
  have hnum : sleb128 Value = num := by
    unfold sleb128
    rw [hencode]
    exact written_eq rfl hwrote
  rw [hnum]
  exact hread hasEnd tail

theorem uleb128_ne_nil (Value : BitVec 64) : uleb128 Value ≠ [] := by
  intro hnil
  have hread := decodeULEB128_uleb128 Value false []
  rw [hnil] at hread
  exact nomatch hread

theorem sleb128_ne_nil (Value : BitVec 64) : sleb128 Value ≠ [] := by
  intro hnil
  have hread := decodeSLEB128_sleb128 Value false []
  rw [hnil] at hread
  exact nomatch hread

end SmlnjLlvm.LEB128
