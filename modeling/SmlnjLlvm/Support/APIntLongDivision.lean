import SmlnjLlvm.Support.APIntDivision
import SmlnjLlvm.Support.APIntMultiply
import SmlnjLlvm.Support.APIntShifts
import SmlnjLlvm.Support.IntRange

/-!
# Division by shifting and subtracting

A cursor, the bit `mask` of the word `n`, moves down the quotient while the
divisor is shifted to the right. The operands are words in different memory.
-/

namespace SmlnjLlvm.Support.APInt

open Digits Loop

def UINT_MAX : Nat := 2 ^ 32 - 1

/-- The loop of `tcMSB` below the word `n`. -/
def msbBelow (parts : Words64) : Nat → Nat
  | 0 => UINT_MAX
  | n + 1 =>
    if parts n ≠ 0 then (Log2_64 (parts n) + n * APINT_BITS_PER_WORD) % 2 ^ 32
    else msbBelow parts n

/-- Of no words the loop reads one that is not there. -/
def tcMSB (parts : Words64) (n : Nat) : Option Nat :=
  if n = 0 then none else some (msbBelow parts n)

def tcAssign (dst src : Words64) (parts : Nat) : Words64 := fun i =>
  if i < parts then src i else dst i

/-- A turn of the loop of `tcSubtract`, with the borrow. -/
def subtractStep (rhs : Words64) (i : Nat) (s : Words64 × BitVec 64) : Words64 × BitVec 64 :=
  let (dst, c) := s
  let l := dst i
  if c ≠ 0 then
    let dst := Function.update dst i (dst i - (rhs i + 1))
    (dst, if l ≤ dst i then 1 else 0)
  else
    let dst := Function.update dst i (dst i - rhs i)
    (dst, if l < dst i then 1 else 0)

def tcSubtract (dst rhs : Words64) (c : BitVec 64) (parts : Nat) : Option (Words64 × BitVec 64) :=
  if c ≤ 1 then some (upto (subtractStep rhs) parts (dst, c)) else none

/-- The words that the loop of `tcDivide` works on, and the cursor in the quotient. -/
structure LongDivision where
  lhs : Words64
  remainder : Words64
  srhs : Words64
  shiftCount : Nat
  n : Nat
  mask : BitVec 64

namespace LongDivision

/-- The shifted divisor is subtracted where it fits. -/
def subtract (parts : Nat) (s : LongDivision) : Option LongDivision :=
  if 0 ≤ tcCompare s.remainder s.srhs parts then do
    let (remainder, _) ← tcSubtract s.remainder s.srhs 0 parts
    some { s with
      lhs := Function.update s.lhs s.n (s.lhs s.n ||| s.mask)
      remainder := remainder }
  else some s

def shift (parts : Nat) (s : LongDivision) : LongDivision :=
  let mask := s.mask >>> 1
  { s with
    srhs := tcShiftRight s.srhs parts 1
    shiftCount := s.shiftCount - 1
    n := if mask = 0 then (s.n + (2 ^ 32 - 1)) % 2 ^ 32 else s.n
    mask := if mask = 0 then (1 : BitVec 64) <<< (APINT_BITS_PER_WORD - 1) else mask }

def turn (parts : Nat) (s : LongDivision) : Option (Turn LongDivision LongDivision) := do
  let s ← s.subtract parts
  if s.shiftCount = 0 then some (.exit s) else some (.next (s.shift parts))

end LongDivision

/-- The result is true where the source returns one, with `lhs`, `remainder` and `srhs`. -/
def tcDivide (turns : Nat) (lhs rhs remainder srhs : Words64) (parts : Nat) :
    Option (Bool × Words64 × Words64 × Words64) := do
  let shiftCount := ((← tcMSB rhs parts) + 1) % 2 ^ 32
  if shiftCount = 0 then some (true, lhs, remainder, srhs)
  else do
    let shiftCount := (parts * APINT_BITS_PER_WORD + (2 ^ 32 - shiftCount)) % 2 ^ 32
    let n := shiftCount / APINT_BITS_PER_WORD
    let mask := (1 : BitVec 64) <<< (shiftCount % APINT_BITS_PER_WORD)
    let srhs := tcShiftLeft (tcAssign srhs rhs parts) parts shiftCount
    let remainder := tcAssign remainder lhs parts
    let lhs ← tcSet lhs 0 0 parts
    let s ← loop (LongDivision.turn parts) turns
      { lhs := lhs, remainder := remainder, srhs := srhs, shiftCount := shiftCount, n := n
        mask := mask }
    some (false, s.lhs, s.remainder, s.srhs)

theorem Log2_64_size {x : BitVec 64} (hx : x ≠ 0) : Log2_64 x + 1 = x.toNat.size := by
  have hpos : 0 < x.toNat.size := Nat.size_pos.mpr (toNat_ne_zero.mp hx)
  have hle : x.toNat.size ≤ 64 := Nat.size_le.mpr x.isLt
  unfold Log2_64
  rw [countl_zero_size hx]
  omega

theorem msbBelow_spec (w : Words64) (n : Nat) :
    (msbBelow w n + 1) % 2 ^ 32 = (wordsVal w n).size % 2 ^ 32 := by
  induction n with
  | zero =>
    have hval : wordsVal w 0 = 0 := rfl
    rw [hval, Nat.size_zero, msbBelow, UINT_MAX]
    norm_num
  | succ n ih =>
    unfold msbBelow
    by_cases hword : w n = 0
    · have hval : wordsVal w (n + 1) = wordsVal w n := by
        rw [wordsVal_succ, hword]
        change _ + 0 * _ = _
        rw [Nat.zero_mul, Nat.add_zero]
      rw [if_neg (not_not.mpr hword), hval]
      exact ih
    · have hlog := Log2_64_size hword
      rw [if_pos hword, size_wordsVal hword]
      unfold APINT_BITS_PER_WORD
      omega

theorem wordsVal_tcAssign (dst src : Words64) (parts : Nat) :
    wordsVal (tcAssign dst src parts) parts = wordsVal src parts :=
  wordsVal_congr fun _ hi => if_pos hi

theorem subtractStep_spec (dst rhs : Words64) (i : Nat) {c : BitVec 64} (hc : c ≤ 1) :
    let t := subtractStep rhs i (dst, c)
    ∃ x : BitVec 64, t.1 = Function.update dst i x ∧ t.2 ≤ 1 ∧
      x.toNat + (rhs i).toNat + c.toNat = (dst i).toNat + t.2.toNat * 2 ^ 64 := by
  have hc' : c.toNat ≤ 1 := hc
  unfold subtractStep
  dsimp only
  by_cases hborrow : c ≠ 0
  · have hone : c.toNat = 1 := Nat.le_antisymm hc' (toNat_ne_zero.mp hborrow)
    rw [if_pos hborrow, Function.update_self, hone]
    refine ⟨_, rfl, ?_⟩
    have hx : (dst i - (rhs i + 1)).toNat =
        (2 ^ 64 - ((rhs i).toNat + 1) % 2 ^ 64 + (dst i).toNat) % 2 ^ 64 := by
      rw [BitVec.toNat_sub, BitVec.toNat_add]
      rfl
    generalize dst i - (rhs i + 1) = x at hx ⊢
    by_cases hle : dst i ≤ x
    · rw [if_pos hle]
      rw [BitVec.le_def] at hle
      refine ⟨BitVec.le_refl 1, ?_⟩
      change _ = _ + 1 * 2 ^ 64
      omega
    · rw [if_neg hle]
      rw [BitVec.le_def] at hle
      refine ⟨(by decide : (0 : BitVec 64) ≤ 1), ?_⟩
      change _ = _ + 0 * 2 ^ 64
      omega
  · have hzero : c.toNat = 0 := by rw [not_not.mp hborrow]; rfl
    rw [if_neg hborrow, Function.update_self, hzero]
    refine ⟨_, rfl, ?_⟩
    have hx : (dst i - rhs i).toNat =
        (2 ^ 64 - (rhs i).toNat + (dst i).toNat) % 2 ^ 64 := BitVec.toNat_sub _ _
    generalize dst i - rhs i = x at hx ⊢
    by_cases hlt : dst i < x
    · rw [if_pos hlt]
      rw [BitVec.lt_def] at hlt
      refine ⟨BitVec.le_refl 1, ?_⟩
      change _ = _ + 1 * 2 ^ 64
      omega
    · rw [if_neg hlt]
      rw [BitVec.lt_def] at hlt
      refine ⟨(by decide : (0 : BitVec 64) ≤ 1), ?_⟩
      change _ = _ + 0 * 2 ^ 64
      omega

theorem subtractSteps_spec (dst rhs : Words64) {c : BitVec 64} (hc : c ≤ 1) (n : Nat) :
    let t := upto (subtractStep rhs) n (dst, c)
    (t.2 ≤ 1 ∧ ∀ i, n ≤ i → t.1 i = dst i) ∧
      wordsVal t.1 n + wordsVal rhs n + c.toNat = wordsVal dst n + t.2.toNat * (2 ^ 64) ^ n := by
  refine upto_rule (f := subtractStep rhs) (n := n) (s := (dst, c)) (fun n t =>
    (t.2 ≤ 1 ∧ ∀ i, n ≤ i → t.1 i = dst i) ∧
      wordsVal t.1 n + wordsVal rhs n + c.toNat = wordsVal dst n + t.2.toNat * (2 ^ 64) ^ n) ?_ ?_
  · refine ⟨⟨hc, fun _ _ => rfl⟩, ?_⟩
    change 0 + 0 + _ = 0 + _ * 1
    rw [Nat.mul_one, Nat.zero_add]
  · rintro n ⟨dst', c'⟩ _ ⟨⟨hc', hframe⟩, hval⟩
    obtain ⟨x, hdst, hborrow, hx⟩ := subtractStep_spec dst' rhs n hc'
    dsimp only at hframe hval hdst hborrow hx
    generalize (subtractStep rhs n (dst', c')).2 = c'' at hborrow hx ⊢
    refine ⟨⟨hborrow, ?_⟩, ?_⟩
    · intro i hi
      have hne : i ≠ n := by omega
      rw [hdst, Function.update_of_ne hne]
      exact hframe i (by omega)
    · have hlow : wordsVal (Function.update dst' n x) n = wordsVal dst' n :=
        wordsVal_congr fun i hi => Function.update_of_ne (Nat.ne_of_lt hi) _ _
      rw [hframe n (Nat.le_refl n)] at hx
      rw [hdst, wordsVal_succ, hlow, Function.update_self, wordsVal_succ, wordsVal_succ]
      generalize (2 ^ 64 : Nat) = B at hx hval ⊢
      calc wordsVal dst' n + x.toNat * B ^ n + (wordsVal rhs n + (rhs n).toNat * B ^ n) + c.toNat
        _ = wordsVal dst' n + wordsVal rhs n + c.toNat + (x.toNat + (rhs n).toNat) * B ^ n := by ring
        _ = wordsVal dst n + (x.toNat + (rhs n).toNat + c'.toNat) * B ^ n := by rw [hval]; ring
        _ = wordsVal dst n + (dst n).toNat * B ^ n + c''.toNat * B ^ (n + 1) := by rw [hx]; ring

theorem tcSubtract_spec (dst rhs : Words64) {parts : Nat}
    (hle : wordsVal rhs parts ≤ wordsVal dst parts) :
    ∃ dst', tcSubtract dst rhs 0 parts = some (dst', 0) ∧
      wordsVal dst' parts = wordsVal dst parts - wordsVal rhs parts ∧
        ∀ i, parts ≤ i → dst' i = dst i := by
  obtain ⟨⟨hc, hframe⟩, hval⟩ := subtractSteps_spec dst rhs (c := 0) (by decide) parts
  unfold tcSubtract
  rw [if_pos (by decide)]
  generalize upto (subtractStep rhs) parts (dst, 0) = t at hc hframe hval ⊢
  obtain ⟨dst', c⟩ := t
  dsimp only at hc hframe hval
  have hlt := wordsVal_lt dst' parts
  have hc' : c.toNat ≤ 1 := hc
  have hzero : c.toNat = 0 := by
    by_contra hne
    have hone : c.toNat = 1 := by omega
    rw [hone, Nat.one_mul] at hval
    change _ + _ + 0 = _ at hval
    omega
  have hnull : c = 0 := BitVec.eq_of_toNat_eq hzero
  rw [hzero, Nat.zero_mul] at hval
  change _ + _ + 0 = _ at hval
  refine ⟨dst', by rw [hnull], ?_, hframe⟩
  omega

theorem wordsVal_setBit (w : Words64) {parts k : Nat} (hk : k < 64 * parts) :
    wordsVal (Function.update w (k / 64) (w (k / 64) ||| (1 : BitVec 64) <<< (k % 64))) parts =
      wordsVal w parts ||| 2 ^ k := by
  have hlt := wordsVal_lt w parts
  rw [wordsVal_pow] at hlt
  rw [← Nat.mod_eq_of_lt (Nat.or_lt_two_pow hlt (Nat.pow_lt_pow_right (by decide) hk))]
  apply wordsVal_eq_of_bits
  intro i hi j hj
  rw [Nat.testBit_or, ← getLsbD_word hi hj, Nat.testBit_two_pow]
  by_cases hword : i = k / 64
  · have hbit : ((1 : BitVec 64) <<< (k % 64)).getLsbD j = decide (k = 64 * i + j) := by
      change (1#64 <<< (k % 64)).getLsbD j = _
      rw [← BitVec.twoPow_eq, BitVec.getLsbD_twoPow]
      by_cases heq : k % 64 = j
      · rw [decide_eq_true heq, decide_eq_true (by omega), decide_eq_true (by omega)]
        rfl
      · rw [decide_eq_false heq, Bool.and_false, decide_eq_false (by omega)]
    rw [← hword, Function.update_self, BitVec.getLsbD_or, hword, hbit, hword]
  · rw [Function.update_of_ne hword, decide_eq_false (by omega), Bool.or_false]

theorem or_two_pow {q k : Nat} (h : 2 ^ (k + 1) ∣ q) : q ||| 2 ^ k = q + 2 ^ k := by
  obtain ⟨c, rfl⟩ := h
  exact (Nat.two_pow_add_eq_or_of_lt (Nat.pow_lt_pow_right (by decide) (Nat.lt_succ_self k)) c).symm

theorem toNat_bit {k : Nat} (hk : k < 64) : ((1 : BitVec 64) <<< k).toNat = 2 ^ k := by
  change (1#64 <<< k).toNat = 2 ^ k
  rw [← BitVec.twoPow_eq, BitVec.toNat_twoPow_of_lt hk]

theorem shift_cursor (parts : Nat) {s : LongDivision} (hpos : s.shiftCount ≠ 0)
    (hlt : s.shiftCount < 2 ^ 32) (hn : s.n = s.shiftCount / 64)
    (hmask : s.mask = (1 : BitVec 64) <<< (s.shiftCount % 64)) :
    (s.shift parts).n = (s.shiftCount - 1) / 64 ∧
      (s.shift parts).mask = (1 : BitVec 64) <<< ((s.shiftCount - 1) % 64) := by
  have hshift : (s.mask >>> 1).toNat = 2 ^ (s.shiftCount % 64) / 2 := by
    rw [hmask, BitVec.toNat_ushiftRight, toNat_bit (Nat.mod_lt _ (by decide)),
      Nat.shiftRight_eq_div_pow, pow_one]
  unfold LongDivision.shift
  dsimp only
  by_cases hword : s.shiftCount % 64 = 0
  · have hzero : s.mask >>> 1 = 0 := by
      apply BitVec.eq_of_toNat_eq
      rw [hshift, hword]
      rfl
    have hbit : (s.shiftCount - 1) % 64 = APINT_BITS_PER_WORD - 1 := by
      unfold APINT_BITS_PER_WORD
      omega
    rw [if_pos hzero, if_pos hzero, hbit, hn]
    refine ⟨?_, rfl⟩
    omega
  · obtain ⟨b, hb⟩ := Nat.exists_eq_succ_of_ne_zero hword
    have hlow : (s.shiftCount - 1) % 64 = b := by omega
    have hmask' : s.mask >>> 1 = (1 : BitVec 64) <<< b := by
      apply BitVec.eq_of_toNat_eq
      rw [hshift, hb, toNat_bit (by omega), pow_succ, Nat.mul_div_cancel _ (by decide)]
    have hne : ¬(1 : BitVec 64) <<< b = 0 := by
      rw [← ne_eq, toNat_ne_zero, toNat_bit (by omega)]
      exact Nat.two_pow_pos b
    rw [hmask', if_neg hne, if_neg hne, hlow, hn]
    refine ⟨?_, rfl⟩
    omega

/-! ## The loop -/

/-- Before a turn: the quotient has no bit up to the cursor. -/
structure Dividing (N D parts : Nat) (lhs remainder : Words64) (s : LongDivision) : Prop where
  narrow : s.shiftCount < 2 ^ 32
  inside : s.shiftCount < 64 * parts
  word : s.n = s.shiftCount / 64
  bit : s.mask = (1 : BitVec 64) <<< (s.shiftCount % 64)
  divisor : wordsVal s.srhs parts = D * 2 ^ s.shiftCount
  sum : D * wordsVal s.lhs parts + wordsVal s.remainder parts = N
  small : wordsVal s.remainder parts < D * 2 ^ (s.shiftCount + 1)
  free : 2 ^ (s.shiftCount + 1) ∣ wordsVal s.lhs parts
  frame : ∀ i, parts ≤ i → s.lhs i = lhs i ∧ s.remainder i = remainder i

variable {N D parts : Nat} {lhs remainder : Words64} {s : LongDivision}

theorem Dividing.subtract (h : Dividing N D parts lhs remainder s) :
    ∃ s', s.subtract parts = some s' ∧
      (s'.srhs = s.srhs ∧ s'.shiftCount = s.shiftCount ∧ s'.n = s.n ∧ s'.mask = s.mask) ∧
      D * wordsVal s'.lhs parts + wordsVal s'.remainder parts = N ∧
      wordsVal s'.remainder parts < D * 2 ^ s.shiftCount ∧
      2 ^ s.shiftCount ∣ wordsVal s'.lhs parts ∧
      ∀ i, parts ≤ i → s'.lhs i = lhs i ∧ s'.remainder i = remainder i := by
  have hcompare := tcCompare_neg_iff s.remainder s.srhs parts
  have hfree : 2 ^ s.shiftCount ∣ wordsVal s.lhs parts :=
    (pow_dvd_pow 2 (Nat.le_succ _)).trans h.free
  have hsmall := h.small
  have hsum := h.sum
  rw [h.divisor] at hcompare
  unfold LongDivision.subtract
  by_cases hle : D * 2 ^ s.shiftCount ≤ wordsVal s.remainder parts
  · have hfits : wordsVal s.srhs parts ≤ wordsVal s.remainder parts := by
      rw [h.divisor]
      exact hle
    obtain ⟨remainder', hrun, hval, hframe⟩ := tcSubtract_spec s.remainder s.srhs hfits
    rw [if_pos (by omega), hrun]
    refine ⟨_, rfl, ⟨rfl, rfl, rfl, rfl⟩, ?_⟩
    dsimp only
    rw [h.word, h.bit, wordsVal_setBit _ h.inside, or_two_pow h.free, hval, h.divisor]
    refine ⟨?_, ?_, (Nat.dvd_add_right hfree).mpr (dvd_refl _), ?_⟩
    · rw [Nat.mul_add]
      omega
    · rw [pow_succ, ← Nat.mul_assoc] at hsmall
      omega
    · intro i hi
      have hne : i ≠ s.shiftCount / 64 := by
        have hinside := h.inside
        omega
      rw [Function.update_of_ne hne, hframe i hi]
      exact h.frame i hi
  · rw [if_neg (by omega)]
    exact ⟨s, rfl, ⟨rfl, rfl, rfl, rfl⟩, hsum, Nat.not_le.mp hle, hfree, h.frame⟩

/-- Quotient and remainder, after the last turn. -/
def LongDivision.Done (N D parts : Nat) (lhs remainder : Words64) (s : LongDivision) : Prop :=
  (wordsVal s.lhs parts = N / D ∧ wordsVal s.remainder parts = N % D) ∧
    ∀ i, parts ≤ i → s.lhs i = lhs i ∧ s.remainder i = remainder i

theorem Dividing.turn (hD : 0 < D) (h : Dividing N D parts lhs remainder s) :
    ∃ t, s.turn parts = some t ∧
      t.Sat (fun s' => Dividing N D parts lhs remainder s' ∧ s'.shiftCount < s.shiftCount)
        (LongDivision.Done N D parts lhs remainder) := by
  obtain ⟨s', hrun, ⟨hsrhs, hcount, hn, hmask⟩, hsum, hsmall, hdvd, hframe⟩ := h.subtract
  unfold LongDivision.turn
  rw [hrun]
  simp only [Option.bind_eq_bind, Option.bind_some]
  by_cases hzero : s'.shiftCount = 0
  · rw [if_pos hzero]
    refine ⟨_, rfl, ?_, hframe⟩
    rw [← hcount, hzero, pow_zero, Nat.mul_one] at hsmall
    rw [Nat.add_comm] at hsum
    obtain ⟨hdiv, hmod⟩ := (Nat.div_mod_unique hD).mpr ⟨hsum, hsmall⟩
    exact ⟨hdiv.symm, hmod.symm⟩
  · rw [if_neg hzero]
    refine ⟨_, rfl, ?_, ?_⟩
    · have hinside := h.inside
      have hnarrow := h.narrow
      obtain ⟨k, hk⟩ := Nat.exists_eq_succ_of_ne_zero hzero
      have hpred : s'.shiftCount - 1 = k := by omega
      obtain ⟨hword, hbit⟩ := shift_cursor parts hzero (by omega) (by rw [hn, hcount, h.word])
        (by rw [hmask, hcount, h.bit])
      rw [hpred] at hword hbit
      rw [← hcount, hk] at hsmall hdvd
      have hshifted : (s'.shift parts).shiftCount = k := hpred
      constructor
      · rw [hshifted]
        omega
      · rw [hshifted]
        omega
      · rw [hshifted]
        exact hword
      · rw [hshifted]
        exact hbit
      · have hone : 1 / 64 ≤ parts := Nat.zero_le parts
        rw [hshifted]
        change wordsVal (tcShiftRight s'.srhs parts 1) parts = _
        rw [tcShiftRight_spec _ hone, hsrhs, h.divisor, ← hcount, hk, pow_one, Nat.succ_eq_add_one,
          pow_succ, ← Nat.mul_assoc, Nat.mul_div_cancel _ (by decide)]
      · exact hsum
      · rw [hshifted]
        exact hsmall
      · rw [hshifted]
        exact hdvd
      · exact hframe
    · change s'.shiftCount - 1 < s.shiftCount
      omega

theorem tcDivide_spec (lhs rhs remainder srhs : Words64) {parts : Nat}
    (hpos : 0 < wordsVal rhs parts) (hbits : (wordsVal rhs parts).size < 2 ^ 32)
    (hzeros : 64 * parts - (wordsVal rhs parts).size < 2 ^ 32) :
    ∃ lhs' remainder' srhs', (∀ turns, 64 * parts ≤ turns →
        tcDivide turns lhs rhs remainder srhs parts = some (false, lhs', remainder', srhs')) ∧
      (wordsVal lhs' parts = wordsVal lhs parts / wordsVal rhs parts ∧
        wordsVal remainder' parts = wordsVal lhs parts % wordsVal rhs parts) ∧
      ∀ i, parts ≤ i → lhs' i = lhs i ∧ remainder' i = remainder i := by
  have hparts : 0 < parts := by
    by_contra hzero
    rw [Nat.eq_zero_of_not_pos hzero] at hpos
    exact Nat.lt_irrefl 0 hpos
  have hmsb := msbBelow_spec rhs parts
  rw [Nat.mod_eq_of_lt hbits] at hmsb
  have hsize : 0 < (wordsVal rhs parts).size := Nat.size_pos.mpr hpos
  have hle := size_wordsVal_le rhs parts
  have hlower : 2 ^ ((wordsVal rhs parts).size - 1) ≤ wordsVal rhs parts :=
    Nat.lt_size.mp (Nat.sub_one_lt (Nat.ne_of_gt hsize))
  have hupper := Nat.lt_size_self (wordsVal rhs parts)
  obtain ⟨S, hS⟩ := Nat.exists_eq_add_of_le hle
  have hcount : (parts * APINT_BITS_PER_WORD + (2 ^ 32 - (wordsVal rhs parts).size)) % 2 ^ 32 =
      S := by
    unfold APINT_BITS_PER_WORD
    omega
  obtain ⟨lhs', hset, hframe, hnull⟩ := tcSet_spec lhs 0 hparts
  rw [Nat.zero_add] at hframe hnull
  have hstart : Dividing (wordsVal lhs parts) (wordsVal rhs parts) parts lhs remainder
      { lhs := lhs', remainder := tcAssign remainder lhs parts
        srhs := tcShiftLeft (tcAssign srhs rhs parts) parts S, shiftCount := S, n := S / 64
        mask := (1 : BitVec 64) <<< (S % 64) } := by
    have hzero : wordsVal lhs' parts = 0 :=
      wordsVal_of_zeros (n := 0) (Nat.zero_le parts) fun i hi hlt => hnull i hi hlt
    constructor
    · dsimp only
      omega
    · dsimp only
      omega
    · rfl
    · rfl
    · have hfits : wordsVal rhs parts * 2 ^ S < 2 ^ (64 * parts) := by
        rw [hS, pow_add]
        exact Nat.mul_lt_mul_of_pos_right hupper (Nat.two_pow_pos S)
      rw [tcShiftLeft_spec, wordsVal_tcAssign, Nat.mod_eq_of_lt hfits]
    · dsimp only
      rw [hzero, wordsVal_tcAssign, Nat.mul_zero, Nat.zero_add]
    · have hlt := wordsVal_lt lhs parts
      rw [wordsVal_tcAssign]
      calc wordsVal lhs parts < 2 ^ (64 * parts) := by rw [← wordsVal_pow]; exact hlt
        _ = 2 ^ ((wordsVal rhs parts).size - 1) * 2 ^ (S + 1) := by
          rw [← pow_add]
          congr 1
          omega
        _ ≤ wordsVal rhs parts * 2 ^ (S + 1) := Nat.mul_le_mul_right _ hlower
    · dsimp only
      rw [hzero]
      exact dvd_zero _
    · intro i hi
      exact ⟨hframe i (Or.inr hi), if_neg (Nat.not_lt.mpr hi)⟩
  obtain ⟨s, hrun, hvalues, hframe'⟩ := loop_total (LongDivision.turn parts)
    LongDivision.shiftCount (fun s h => Dividing.turn hpos h) hstart
  refine ⟨s.lhs, s.remainder, s.srhs, ?_, hvalues, hframe'⟩
  intro turns hturns
  have hloop := hrun turns (by dsimp only; omega)
  unfold tcDivide tcMSB
  rw [if_neg (Nat.ne_of_gt hparts)]
  simp only [Option.bind_eq_bind, Option.bind_some]
  rw [hmsb, if_neg (Nat.ne_of_gt hsize), hcount, hset]
  change (loop _ turns _).bind _ = _
  unfold APINT_BITS_PER_WORD
  rw [hloop]
  rfl

theorem tcDivide_missed (turns : Nat) (lhs rhs remainder srhs : Words64) {parts : Nat}
    (hparts : 0 < parts) (hbits : (wordsVal rhs parts).size % 2 ^ 32 = 0) :
    tcDivide turns lhs rhs remainder srhs parts = some (true, lhs, remainder, srhs) := by
  have hmsb := msbBelow_spec rhs parts
  unfold tcDivide tcMSB
  rw [if_neg (Nat.ne_of_gt hparts)]
  simp only [Option.bind_eq_bind, Option.bind_some]
  rw [hmsb, hbits, if_pos rfl]

/--
Division by shifting and subtracting, where the bits of the divisor and the
zeros above them can be counted. The words are those that Algorithm D stores
for a dividend whose topmost digit of 32 bits stands no lower than the divisor's;
it does not divide others.
-/
theorem divisions_agree :
    (∀ (turns : Nat) (lhs rhs remainder srhs : Words64) (parts : Nat), 0 < parts →
      wordsVal rhs parts = 0 →
      tcDivide turns lhs rhs remainder srhs parts = some (true, lhs, remainder, srhs)) ∧
    ∀ (lhs rhs remainder srhs : Words64) (parts : Nat), 0 < wordsVal rhs parts →
      (wordsVal rhs parts).size < 2 ^ 32 → 64 * parts - (wordsVal rhs parts).size < 2 ^ 32 →
      ∃ lhs' remainder' srhs', (∀ turns, 64 * parts ≤ turns →
          tcDivide turns lhs rhs remainder srhs parts = some (false, lhs', remainder', srhs')) ∧
        (wordsVal lhs' parts = wordsVal lhs parts / wordsVal rhs parts ∧
          wordsVal remainder' parts = wordsVal lhs parts % wordsVal rhs parts) ∧
        (∀ i, parts ≤ i → lhs' i = lhs i ∧ remainder' i = remainder i) ∧
        ∀ Quotient Remainder : Words64,
          (Nat.log (2 ^ 32) (wordsVal rhs parts) ≤ Nat.log (2 ^ 32) (wordsVal lhs parts) →
            ∃ q r, divide lhs parts rhs parts (some Quotient) (some Remainder) =
                some (some q, some r) ∧
              ∀ i < parts, q i = lhs' i ∧ r i = remainder' i) ∧
          (Nat.log (2 ^ 32) (wordsVal lhs parts) < Nat.log (2 ^ 32) (wordsVal rhs parts) →
            divide lhs parts rhs parts (some Quotient) (some Remainder) = none) := by
  refine ⟨?_, ?_⟩
  · intro turns lhs rhs remainder srhs parts hparts hzero
    apply tcDivide_missed turns lhs rhs remainder srhs hparts
    rw [hzero, Nat.size_zero, Nat.zero_mod]
  · intro lhs rhs remainder srhs parts hpos hbits hzeros
    obtain ⟨lhs', remainder', srhs', hrun, ⟨hquot, hrem⟩, hframe⟩ :=
      tcDivide_spec lhs rhs remainder srhs hpos hbits hzeros
    refine ⟨lhs', remainder', srhs', hrun, ⟨hquot, hrem⟩, hframe, ?_⟩
    intro Quotient Remainder
    refine ⟨?_, divide_of_log_lt lhs rhs _ _ (Nat.le_refl parts)⟩
    intro hlog
    obtain ⟨q, r, hdivide, hq, hr⟩ :=
      divide_of_log lhs rhs (some Quotient) (some Remainder) (Nat.le_refl parts) hpos hlog
    refine ⟨q Quotient, r Remainder, hdivide, ?_⟩
    intro i hi
    rw [← hquot] at hq
    rw [← hrem] at hr
    exact ⟨wordsVal_inj.mp (hq Quotient).1 i hi, wordsVal_inj.mp (hr Remainder).1 i hi⟩

/-- `2^64 + 5` by zero and by three. -/
theorem divisions_agree_small :
    let lhs : Words64 := fun i => [5#64, 1#64].getD i 0
    let rhs : Words64 := fun i => [3#64].getD i 0
    tcDivide 0 lhs (fun _ => 0) rhs rhs 2 = some (true, lhs, rhs, rhs) ∧
      ∃ lhs' remainder' srhs' q r,
        tcDivide 128 lhs rhs rhs rhs 2 = some (false, lhs', remainder', srhs') ∧
        wordsVal lhs' 2 = 6148914691236517207 ∧ wordsVal remainder' 2 = 0 ∧
        divide lhs 2 rhs 2 (some lhs) (some rhs) = some (some q, some r) ∧
        ∀ i < 2, q i = lhs' i ∧ r i = remainder' i := by
  intro lhs rhs
  refine ⟨divisions_agree.1 0 lhs (fun _ => 0) rhs rhs 2 (by decide) (by decide +kernel), ?_⟩
  have hsize : (wordsVal rhs 2).size = 2 := by decide +kernel
  obtain ⟨lhs', remainder', srhs', hrun, ⟨hquot, hrem⟩, _, hdivide⟩ :=
    divisions_agree.2 lhs rhs rhs rhs 2 (by decide +kernel) (by rw [hsize]; decide)
      (by rw [hsize]; decide)
  obtain ⟨q, r, hstored, hsame⟩ := (hdivide lhs rhs).1 (by decide +kernel)
  refine ⟨lhs', remainder', srhs', q, r, hrun 128 (Nat.le_refl 128), ?_, ?_, hstored, hsame⟩
  · rw [hquot]
    decide +kernel
  · rw [hrem]
    decide +kernel

/--
The topmost bit of a divisor of `2^26` words has the number that stands for no
bit; of no words one is read; and Algorithm D does not divide one by `2^32`.
-/
theorem division_missed :
    (∀ turns (lhs remainder srhs : Words64),
      let rhs : Words64 := fun _ => 0x8000000000000000#64
      0 < wordsVal rhs (2 ^ 26) ∧
        tcDivide turns lhs rhs remainder srhs (2 ^ 26) = some (true, lhs, remainder, srhs)) ∧
    (∀ turns (lhs rhs remainder srhs : Words64), wordsVal rhs 0 = 0 ∧
      tcDivide turns lhs rhs remainder srhs 0 = none) ∧
    ∀ Quotient Remainder : Words64,
      divide (fun _ => 1) 1 (fun _ => 0x100000000#64) 1 (some Quotient) (some Remainder) = none := by
  refine ⟨?_, ?_, ?_⟩
  · intro turns lhs remainder srhs rhs
    obtain ⟨n, hn⟩ : ∃ n, 2 ^ 26 = n + 1 := ⟨2 ^ 26 - 1, by norm_num⟩
    have hword : rhs n ≠ 0 := by decide
    have hsize : (wordsVal rhs (n + 1)).size = 2 ^ 32 := by
      have htop : (rhs n).toNat.size = 64 := by decide +kernel
      rw [size_wordsVal hword, htop]
      omega
    rw [hn]
    refine ⟨Nat.size_pos.mp (by rw [hsize]; decide), ?_⟩
    apply tcDivide_missed turns lhs rhs remainder srhs (Nat.succ_pos n)
    rw [hsize, Nat.mod_self]
  · intro turns lhs rhs remainder srhs
    exact ⟨rfl, rfl⟩
  · intro Quotient Remainder
    exact divide_of_log_lt _ _ _ _ (Nat.le_refl 1) (by decide +kernel)

end SmlnjLlvm.Support.APInt
