import SmlnjLlvm.Library.WideSums
import SmlnjLlvm.Support.APInt

/-!
# Multiplication of words

The operands and the result are words in one memory, at their addresses, so that
the assertions on overlapping operands can be stated. A product of two words is
put together from the products of their halves.
-/

namespace SmlnjLlvm.Support.APInt

open Digits WideSums Loop

def lowHalf (part : BitVec 64) : BitVec 64 := part &&& (BitVec.allOnes 64 >>> (64 - 32))

def highHalf (part : BitVec 64) : BitVec 64 := part >>> 32

/-- The first word becomes `part`, and the others zero. -/
def tcSet (mem : Words64) (dst : Nat) (part : BitVec 64) (parts : Nat) : Option Words64 :=
  if parts = 0 then none
  else some (clearWords (Function.update mem dst part) (dst + 1) (dst + parts))

/-- A product of halves with the weight of one half is added. -/
def addMid (s : BitVec 64 × BitVec 64) (mid : BitVec 64) : BitVec 64 × BitVec 64 :=
  addLow (s.1, s.2 + highHalf mid) (mid <<< 32)

/-- The words `low` and `high` of a product, to which `carry` is added. -/
def multiplyWord (srcPart multiplier carry : BitVec 64) : BitVec 64 × BitVec 64 :=
  if multiplier = 0 ∨ srcPart = 0 then (carry, 0)
  else
    let s := (lowHalf srcPart * lowHalf multiplier, highHalf srcPart * highHalf multiplier)
    let s := addMid s (lowHalf srcPart * highHalf multiplier)
    let s := addMid s (highHalf srcPart * lowHalf multiplier)
    addLow s carry

/-- A turn of the loop of `tcMultiplyPart`, with the carry. -/
def multiplyStep (dst src : Nat) (multiplier : BitVec 64) (add : Bool) (i : Nat)
    (s : Words64 × BitVec 64) : Words64 × BitVec 64 :=
  let (mem, carry) := s
  let product := multiplyWord (mem (src + i)) multiplier carry
  let (low, high) := if add then addLow product (mem (dst + i)) else product
  (Function.update mem (dst + i) low, high)

/-- The result is true where the source returns one. -/
def tcMultiplyPart (mem : Words64) (dst src : Nat) (multiplier carry : BitVec 64)
    (srcParts dstParts : Nat) (add : Bool) : Option (Words64 × Bool) :=
  if ¬((dst ≤ src ∨ src + srcParts ≤ dst) ∧ dstParts ≤ (srcParts + 1) % 2 ^ 32) then none
  else
    let n := min dstParts srcParts
    let (mem, carry) := upto (multiplyStep dst src multiplier add) n (mem, carry)
    if srcParts < dstParts then
      if (srcParts + 1) % 2 ^ 32 = dstParts then
        some (Function.update mem (dst + srcParts) carry, false)
      else none
    else if carry ≠ 0 then some (mem, true)
    else if multiplier ≠ 0 then
      some (mem, (List.range (srcParts - dstParts)).any fun i => mem (src + dstParts + i) != 0)
    else some (mem, false)

def tcMultiply (mem : Words64) (dst lhs rhs parts : Nat) : Option (Words64 × Bool) :=
  if ¬(dst ≠ lhs ∧ dst ≠ rhs) then none
  else do
    let mem ← tcSet mem dst 0 parts
    (List.range parts).foldlM (fun (mem, overflow) i => do
      let (mem, o) ← tcMultiplyPart mem (dst + i) lhs (mem (rhs + i)) 0 parts (parts - i) true
      some (mem, overflow || o)) (mem, false)

/-- `tcFullMultiply` where the narrower number is on the left. -/
def fullMultiplyNarrow (mem : Words64) (dst lhs rhs lhsParts rhsParts : Nat) : Option Words64 :=
  if ¬(dst ≠ lhs ∧ dst ≠ rhs) then none
  else do
    let mem ← tcSet mem dst 0 rhsParts
    (List.range lhsParts).foldlM (fun mem i => do
      let (mem, _) ← tcMultiplyPart mem (dst + i) rhs (mem (lhs + i)) 0 rhsParts
        ((rhsParts + 1) % 2 ^ 32) true
      some mem) mem

def tcFullMultiply (mem : Words64) (dst lhs rhs lhsParts rhsParts : Nat) : Option Words64 :=
  if rhsParts < lhsParts then fullMultiplyNarrow mem dst rhs lhs rhsParts lhsParts
  else fullMultiplyNarrow mem dst lhs rhs lhsParts rhsParts

theorem toNat_lowHalf (x : BitVec 64) : (lowHalf x).toNat = x.toNat % 2 ^ 32 := by
  have hmask : (BitVec.allOnes 64 >>> (64 - 32) : BitVec 64).toNat = 2 ^ 32 - 1 := by decide
  rw [lowHalf, BitVec.toNat_and, hmask, Nat.and_two_pow_sub_one_eq_mod]

theorem toNat_highHalf (x : BitVec 64) : (highHalf x).toNat = x.toNat / 2 ^ 32 := by
  rw [highHalf, Words.toNat_shr]

theorem wide_addMid (s : BitVec 64 × BitVec 64) (mid : BitVec 64) :
    wide (addMid s mid) ≡ wide s + mid.toNat * 2 ^ 32 [MOD 2 ^ 64 * 2 ^ 64] := by
  refine (wide_addLow (by decide) _ _).trans ?_
  have hhigh : (s.2 + highHalf mid).toNat = (s.2.toNat + mid.toNat / 2 ^ 32) % 2 ^ 64 := by
    rw [BitVec.toNat_add, toNat_highHalf]
  have hshift : (mid <<< 32).toNat = mid.toNat * 2 ^ 32 % 2 ^ 64 := by
    rw [Words.toNat_shl]
  unfold wide Nat.ModEq
  dsimp only
  rw [hhigh, hshift]
  omega

theorem toNat_mul_halves {x y : BitVec 64} (hx : x.toNat < 2 ^ 32) (hy : y.toNat < 2 ^ 32) :
    (x * y).toNat = x.toNat * y.toNat := by
  rw [BitVec.toNat_mul, Nat.mod_eq_of_lt]
  calc x.toNat * y.toNat < 2 ^ 32 * 2 ^ 32 := Nat.mul_lt_mul'' hx hy
    _ = 2 ^ 64 := by decide

theorem mul_add_lt (x y c d : BitVec 64) :
    x.toNat * y.toNat + c.toNat + d.toNat < 2 ^ 64 * 2 ^ 64 := by
  have hx := x.isLt
  have hy := y.isLt
  have hmul := Nat.mul_le_mul (Nat.le_sub_one_of_lt hx) (Nat.le_sub_one_of_lt hy)
  omega

theorem wide_multiplyWord (srcPart multiplier carry : BitVec 64) :
    wide (multiplyWord srcPart multiplier carry) =
      srcPart.toNat * multiplier.toNat + carry.toNat := by
  have hlt := mul_add_lt srcPart multiplier carry 0
  unfold multiplyWord
  by_cases hzero : multiplier = 0 ∨ srcPart = 0
  · rw [if_pos hzero]
    have hmul : srcPart.toNat * multiplier.toNat = 0 := by
      rcases hzero with rfl | rfl
      · exact Nat.mul_zero _
      · exact Nat.zero_mul _
    rw [hmul]
    change 0 * 2 ^ 64 + carry.toNat = 0 + carry.toNat
    rw [Nat.zero_mul]
  rw [if_neg hzero]
  have hlx := toNat_lowHalf srcPart
  have hhx := toNat_highHalf srcPart
  have hly := toNat_lowHalf multiplier
  have hhy := toNat_highHalf multiplier
  have hll := toNat_mul_halves (x := lowHalf srcPart) (y := lowHalf multiplier)
    (by omega) (by omega)
  have hhh := toNat_mul_halves (x := highHalf srcPart) (y := highHalf multiplier)
    (by omega) (by omega)
  have hlh := toNat_mul_halves (x := lowHalf srcPart) (y := highHalf multiplier)
    (by omega) (by omega)
  have hhl := toNat_mul_halves (x := highHalf srcPart) (y := lowHalf multiplier)
    (by omega) (by omega)
  apply wide_eq
  · refine (wide_addLow (by decide) _ carry).trans (Nat.ModEq.add_right _ ?_)
    refine (wide_addMid _ _).trans ?_
    have hfirst := (wide_addMid (lowHalf srcPart * lowHalf multiplier,
      highHalf srcPart * highHalf multiplier) (lowHalf srcPart * highHalf multiplier)).add_right
        ((highHalf srcPart * lowHalf multiplier).toNat * 2 ^ 32)
    refine hfirst.trans ?_
    have hsplitx : srcPart.toNat = (highHalf srcPart).toNat * 2 ^ 32 + (lowHalf srcPart).toNat := by
      omega
    have hsplity : multiplier.toNat =
        (highHalf multiplier).toNat * 2 ^ 32 + (lowHalf multiplier).toNat := by
      omega
    have htotal : wide (lowHalf srcPart * lowHalf multiplier,
          highHalf srcPart * highHalf multiplier) +
        (lowHalf srcPart * highHalf multiplier).toNat * 2 ^ 32 +
          (highHalf srcPart * lowHalf multiplier).toNat * 2 ^ 32 =
        srcPart.toNat * multiplier.toNat := by
      unfold wide
      rw [hll, hhh, hlh, hhl, hsplitx, hsplity]
      ring
    rw [htotal]
  · change _ + _ + 0 < _ at hlt
    omega

/-- The value of the words from an address on. -/
def wordsFrom (mem : Words64) (p n : Nat) : Nat := value (2 ^ 64) (fun i => (mem i).toNat) p n

section Memory

variable {mem mem' : Words64} {p n : Nat}

theorem wordsFrom_zero (mem : Words64) (p : Nat) : wordsFrom mem p 0 = 0 := rfl

theorem wordsFrom_succ (mem : Words64) (p n : Nat) :
    wordsFrom mem p (n + 1) = wordsFrom mem p n + (mem (p + n)).toNat * (2 ^ 64) ^ n := rfl

theorem wordsFrom_add (mem : Words64) (p n m : Nat) :
    wordsFrom mem p (n + m) = wordsFrom mem p n + (2 ^ 64) ^ n * wordsFrom mem (p + n) m :=
  value_add p n m

theorem wordsFrom_lt (mem : Words64) (p n : Nat) : wordsFrom mem p n < (2 ^ 64) ^ n :=
  value_lt fun i _ => (mem (p + i)).isLt

theorem wordsFrom_congr (h : ∀ j, p ≤ j → j < p + n → mem' j = mem j) :
    wordsFrom mem' p n = wordsFrom mem p n := by
  apply value_congr
  intro i hi
  rw [h (p + i) (Nat.le_add_right p i) (Nat.add_lt_add_left hi p)]

theorem wordsFrom_zeros (h : ∀ j, p ≤ j → j < p + n → mem j = 0) : wordsFrom mem p n = 0 := by
  have hnone : wordsFrom mem p n = wordsFrom mem p 0 := by
    apply value_of_zeros (Nat.zero_le n)
    intro i _ hi
    rw [h (p + i) (Nat.le_add_right p i) (Nat.add_lt_add_left hi p)]
    rfl
  exact hnone

theorem wordsFrom_ne_zero_iff :
    wordsFrom mem p n ≠ 0 ↔ (List.range n).any (fun i => mem (p + i) != 0) = true := by
  rw [List.any_eq_true]
  constructor
  · intro hne
    by_contra hall
    push Not at hall
    apply hne
    apply wordsFrom_zeros
    intro j hlo hhi
    have hword := hall (j - p) (List.mem_range.mpr (by omega))
    rw [Nat.add_sub_cancel' hlo] at hword
    exact not_not.mp fun hne => hword (bne_iff_ne.mpr hne)
  · rintro ⟨i, hi, hword⟩
    have hle := le_value (b := 2 ^ 64) (d := fun i => (mem i).toNat) p (List.mem_range.mp hi)
    have hpos : 0 < (mem (p + i)).toNat := by
      apply Nat.pos_of_ne_zero
      intro hzero
      exact bne_iff_ne.mp hword (BitVec.eq_of_toNat_eq hzero)
    exact (Nat.lt_of_lt_of_le (Nat.mul_pos hpos (pow_pos (by decide) i)) hle).ne'

end Memory

/-! ## One word by many -/

/-- The words that a sum is added to. -/
def addend (mem : Words64) (dst : Nat) (add : Bool) (n : Nat) : Nat :=
  if add then wordsFrom mem dst n else 0

section Part

variable (mem : Words64) {dst src srcParts : Nat} (multiplier carry : BitVec 64) (add : Bool)

/-- What the first `i` turns of the loop have done. -/
structure Multiplied (mem : Words64) (dst src : Nat) (multiplier carry : BitVec 64) (add : Bool)
    (i : Nat) (s : Words64 × BitVec 64) : Prop where
  frame : ∀ j, j < dst ∨ dst + i ≤ j → s.1 j = mem j
  value : wordsFrom s.1 dst i + s.2.toNat * (2 ^ 64) ^ i =
    addend mem dst add i + wordsFrom mem src i * multiplier.toNat + carry.toNat

theorem Multiplied.step {i : Nat} {s : Words64 × BitVec 64}
    (hplace : dst ≤ src ∨ src + srcParts ≤ dst) (hi : i < srcParts)
    (h : Multiplied mem dst src multiplier carry add i s) :
    Multiplied mem dst src multiplier carry add (i + 1)
      (multiplyStep dst src multiplier add i s) := by
  obtain ⟨mem', c⟩ := s
  have hsrc : mem' (src + i) = mem (src + i) := h.frame (src + i) (by omega)
  have hdst : mem' (dst + i) = mem (dst + i) := h.frame (dst + i) (by omega)
  obtain ⟨r, hr⟩ : ∃ r, r = if add then addLow (multiplyWord (mem' (src + i)) multiplier c)
      (mem' (dst + i)) else multiplyWord (mem' (src + i)) multiplier c := ⟨_, rfl⟩
  have hstep : multiplyStep dst src multiplier add i (mem', c) =
      (Function.update mem' (dst + i) r.1, r.2) := by
    rw [hr]
    cases add <;> rfl
  have hword : wide r = (mem (src + i)).toNat * multiplier.toNat + c.toNat +
      (if add then (mem (dst + i)).toNat else 0) := by
    have hmul := wide_multiplyWord (mem (src + i)) multiplier c
    rw [hr, hsrc, hdst]
    cases add with
    | false => exact hmul
    | true =>
      apply wide_eq
      · rw [← hmul]
        exact wide_addLow (by decide) _ _
      · exact mul_add_lt _ _ _ _
  rw [hstep]
  constructor
  · intro j hj
    have hne : j ≠ dst + i := by omega
    exact (Function.update_of_ne hne _ _).trans (h.frame j (by omega))
  · have hvalue := h.value
    dsimp only at hvalue ⊢
    have hlow : wordsFrom (Function.update mem' (dst + i) r.1) dst i = wordsFrom mem' dst i :=
      wordsFrom_congr fun j _ hhi => Function.update_of_ne (by omega) _ _
    have hadd : addend mem dst add (i + 1) =
        addend mem dst add i + (if add then (mem (dst + i)).toNat else 0) * (2 ^ 64) ^ i := by
      cases add with
      | false =>
        change (0 : Nat) = 0 + 0 * _
        rw [Nat.zero_mul]
      | true => exact wordsFrom_succ mem dst i
    rw [wordsFrom_succ, hlow, Function.update_self, wordsFrom_succ, hadd, pow_succ]
    unfold wide at hword
    generalize (if add then (mem (dst + i)).toNat else 0) = d at hword ⊢
    calc wordsFrom mem' dst i + r.1.toNat * (2 ^ 64) ^ i + r.2.toNat * ((2 ^ 64) ^ i * 2 ^ 64)
        = wordsFrom mem' dst i + (r.2.toNat * 2 ^ 64 + r.1.toNat) * (2 ^ 64) ^ i := by ring
      _ = wordsFrom mem' dst i + c.toNat * (2 ^ 64) ^ i +
          ((mem (src + i)).toNat * multiplier.toNat + d) * (2 ^ 64) ^ i := by
        rw [hword]
        ring
      _ = _ := by
        rw [hvalue]
        ring

theorem multiplySteps_spec (hplace : dst ≤ src ∨ src + srcParts ≤ dst) {n : Nat}
    (hn : n ≤ srcParts) :
    Multiplied mem dst src multiplier carry add n
      (upto (multiplyStep dst src multiplier add) n (mem, carry)) := by
  apply upto_rule (Multiplied mem dst src multiplier carry add)
  · refine ⟨fun _ _ => rfl, ?_⟩
    have hadd : addend mem dst add 0 = 0 := by
      cases add <;> rfl
    rw [hadd, wordsFrom_zero, wordsFrom_zero, pow_zero]
    ring
  · intro i s hi h
    exact h.step mem multiplier carry add hplace (hi.trans_le hn)

/-- What is stored, and whether something was left out, of a number in `parts` words. -/
structure Stored (mem mem' : Words64) (dst parts : Nat) (overflow : Bool) (total : Nat) :
    Prop where
  frame : ∀ j, j < dst ∨ dst + parts ≤ j → mem' j = mem j
  value : wordsFrom mem' dst parts = total % (2 ^ 64) ^ parts
  overflow_iff : overflow = true ↔ total / (2 ^ 64) ^ parts ≠ 0

/-- The exact result. With one word more than the source has, that word is only stored to, so
that what is added to has the length of the source. -/
def partTotal (mem : Words64) (dst src : Nat) (multiplier carry : BitVec 64)
    (srcParts dstParts : Nat) (add : Bool) : Nat :=
  addend mem dst add (min dstParts srcParts) + wordsFrom mem src srcParts * multiplier.toNat +
    carry.toNat

theorem tcMultiplyPart_spec {dstParts : Nat} (hplace : dst ≤ src ∨ src + srcParts ≤ dst)
    (hparts : dstParts ≤ (srcParts + 1) % 2 ^ 32) :
    ∃ mem' o, tcMultiplyPart mem dst src multiplier carry srcParts dstParts add = some (mem', o) ∧
      Stored mem mem' dst dstParts o
        (partTotal mem dst src multiplier carry srcParts dstParts add) := by
  have hloop := multiplySteps_spec mem multiplier carry add hplace
    (Nat.min_le_right dstParts srcParts)
  unfold tcMultiplyPart partTotal
  rw [if_neg (not_not.mpr ⟨hplace, hparts⟩)]
  dsimp only
  generalize upto (multiplyStep dst src multiplier add) (min dstParts srcParts) (mem, carry) = s at *
  obtain ⟨mem', c⟩ := s
  by_cases hfull : srcParts < dstParts
  · -- A full product, with the carry as its last word.
    have hdst : dstParts = srcParts + 1 := by omega
    rw [Nat.min_eq_right (Nat.le_of_lt hfull)] at hloop ⊢
    have hframe := hloop.frame
    have hvalue := hloop.value
    rw [if_pos hfull, if_pos (by omega)]
    refine ⟨_, false, rfl, ?_⟩
    have hstored : wordsFrom (Function.update mem' (dst + srcParts) c) dst dstParts =
        wordsFrom mem' dst srcParts + c.toNat * (2 ^ 64) ^ srcParts := by
      have hlow : wordsFrom (Function.update mem' (dst + srcParts) c) dst srcParts =
          wordsFrom mem' dst srcParts :=
        wordsFrom_congr fun j _ hhi => Function.update_of_ne (Nat.ne_of_lt hhi) _ _
      rw [hdst, wordsFrom_succ, hlow, Function.update_self]
    have hlt := wordsFrom_lt (Function.update mem' (dst + srcParts) c) dst dstParts
    rw [hstored, hvalue] at hlt
    constructor
    · intro j hj
      have hne : j ≠ dst + srcParts := by omega
      exact (Function.update_of_ne hne _ _).trans (hframe j (by omega))
    · rw [hstored, hvalue, Nat.mod_eq_of_lt hlt]
    · rw [Nat.div_eq_of_lt hlt]
      exact ⟨fun h => absurd h Bool.false_ne_true, fun h => absurd rfl h⟩
  · rw [Nat.min_eq_left (Nat.le_of_not_lt hfull)] at hloop ⊢
    have hframe := hloop.frame
    have hvalue := hloop.value
    rw [if_neg hfull]
    -- The words that the loop has not read count with the carry.
    obtain ⟨H, hH⟩ : ∃ H, H = wordsFrom mem (src + dstParts) (srcParts - dstParts) := ⟨_, rfl⟩
    have hany : ((List.range (srcParts - dstParts)).any fun i => mem' (src + dstParts + i) != 0) =
        true ↔ H ≠ 0 := by
      rw [← wordsFrom_ne_zero_iff, hH, wordsFrom_congr fun j hlo hhi => hframe j (by omega)]
    have hsplit : wordsFrom mem src srcParts =
        wordsFrom mem src dstParts + (2 ^ 64) ^ dstParts * H := by
      rw [hH, ← wordsFrom_add, Nat.add_sub_cancel' (Nat.le_of_not_lt hfull)]
    have htotal : addend mem dst add dstParts + wordsFrom mem src srcParts * multiplier.toNat +
        carry.toNat =
          wordsFrom mem' dst dstParts + (2 ^ 64) ^ dstParts * (c.toNat + H * multiplier.toNat) := by
      calc addend mem dst add dstParts + wordsFrom mem src srcParts * multiplier.toNat + carry.toNat
          = addend mem dst add dstParts + wordsFrom mem src dstParts * multiplier.toNat +
              carry.toNat + (2 ^ 64) ^ dstParts * (H * multiplier.toNat) := by
            rw [hsplit]
            ring
        _ = wordsFrom mem' dst dstParts +
              (2 ^ 64) ^ dstParts * (c.toNat + H * multiplier.toNat) := by
            rw [← hvalue]
            ring
    have hlt := wordsFrom_lt mem' dst dstParts
    have hstored : ∀ o : Bool, (o = true ↔ c.toNat + H * multiplier.toNat ≠ 0) →
        Stored mem mem' dst dstParts o (addend mem dst add dstParts +
          wordsFrom mem src srcParts * multiplier.toNat + carry.toNat) := by
      intro o ho
      refine ⟨hframe, ?_, ?_⟩
      · rw [htotal, Nat.add_mul_mod_self_left, Nat.mod_eq_of_lt hlt]
      · rw [htotal, Nat.add_mul_div_left _ _ (pow_pos (by decide) _), Nat.div_eq_of_lt hlt,
          Nat.zero_add]
        exact ho
    by_cases hc : c = 0
    · rw [if_neg (not_not.mpr hc)]
      have hczero : c.toNat = 0 := congrArg BitVec.toNat hc
      rw [hczero, Nat.zero_add] at hstored
      by_cases hm : multiplier = 0
      · rw [if_neg (not_not.mpr hm)]
        refine ⟨mem', false, rfl, hstored false ?_⟩
        rw [hm]
        exact ⟨fun h => absurd h Bool.false_ne_true, fun h => absurd (Nat.mul_zero H) h⟩
      · rw [if_pos hm]
        refine ⟨mem', _, rfl, hstored _ (hany.trans ?_)⟩
        have hmne : multiplier.toNat ≠ 0 := fun h => hm (BitVec.eq_of_toNat_eq h)
        exact (Nat.mul_ne_zero_iff.trans (and_iff_left hmne)).symm
    · rw [if_pos hc]
      have hcne : c.toNat ≠ 0 := fun h => hc (BitVec.eq_of_toNat_eq h)
      refine ⟨mem', true, rfl, hstored true ⟨fun _ => ?_, fun _ => rfl⟩⟩
      omega

end Part

/-! ## Many words by many -/

/-- Two ranges of words that do not overlap. -/
def Apart (p n q m : Nat) : Prop := p + n ≤ q ∨ q + m ≤ p

theorem tcSet_spec (mem : Words64) (dst : Nat) {parts : Nat} (hparts : 0 < parts) :
    ∃ mem', tcSet mem dst 0 parts = some mem' ∧
      (∀ j, j < dst ∨ dst + parts ≤ j → mem' j = mem j) ∧
        ∀ j, dst ≤ j → j < dst + parts → mem' j = 0 := by
  refine ⟨_, if_neg (Nat.ne_of_gt hparts), ?_, ?_⟩
  · intro j hj
    have hne : j ≠ dst := by omega
    unfold clearWords
    rw [if_neg (by omega), Function.update_of_ne hne]
  · intro j hlo hhi
    unfold clearWords
    by_cases hfirst : j = dst
    · rw [if_neg (by omega), hfirst, Function.update_self]
    · rw [if_pos (by omega)]

section Many

variable {mem : Words64} {dst lhs rhs : Nat}

/-- What holds of memory and of the report after `i` words of the right operand. -/
structure Accumulated (mem : Words64) (dst lhs rhs parts i : Nat) (s : Words64 × Bool) : Prop where
  frame : ∀ j, j < dst ∨ dst + parts ≤ j → s.1 j = mem j
  value : wordsFrom s.1 dst parts =
    wordsFrom mem lhs parts * wordsFrom mem rhs i % (2 ^ 64) ^ parts
  overflow_iff : s.2 = true ↔
    (2 ^ 64) ^ parts ≤ wordsFrom mem lhs parts * wordsFrom mem rhs i

theorem Accumulated.step {parts i : Nat} {s : Words64 × Bool} (hparts : parts + 1 < 2 ^ 32)
    (hlhs : Apart dst parts lhs parts) (hrhs : Apart dst parts rhs parts) (hi : i < parts)
    (h : Accumulated mem dst lhs rhs parts i s) :
    ∃ mem' o, tcMultiplyPart s.1 (dst + i) lhs (s.1 (rhs + i)) 0 parts (parts - i) true =
        some (mem', o) ∧
      Accumulated mem dst lhs rhs parts (i + 1) (mem', s.2 || o) := by
  unfold Apart at hlhs hrhs
  obtain ⟨mem', o, hrun, hstored⟩ := tcMultiplyPart_spec s.1 (s.1 (rhs + i)) 0 true
    (show dst + i ≤ lhs ∨ lhs + parts ≤ dst + i by omega)
    (show parts - i ≤ (parts + 1) % 2 ^ 32 by omega)
  refine ⟨mem', o, hrun, ?_⟩
  have hframe := hstored.frame
  have hword : s.1 (rhs + i) = mem (rhs + i) := h.frame (rhs + i) (by omega)
  have hleft : wordsFrom s.1 lhs parts = wordsFrom mem lhs parts :=
    wordsFrom_congr fun j hlo hhi => h.frame j (by omega)
  have htotal : partTotal s.1 (dst + i) lhs (s.1 (rhs + i)) 0 parts (parts - i) true =
      wordsFrom s.1 (dst + i) (parts - i) +
        wordsFrom mem lhs parts * (mem (rhs + i)).toNat := by
    unfold partTotal
    rw [hword, hleft, Nat.min_eq_left (Nat.sub_le parts i)]
    rfl
  have hsplit : ∀ m : Words64, wordsFrom m dst parts =
      wordsFrom m dst i + (2 ^ 64) ^ i * wordsFrom m (dst + i) (parts - i) := by
    intro m
    rw [← wordsFrom_add, Nat.add_sub_cancel' (Nat.le_of_lt hi)]
  have hlow : wordsFrom mem' dst i = wordsFrom s.1 dst i :=
    wordsFrom_congr fun j _ hhi => hframe j (.inl hhi)
  obtain ⟨hcut, hover⟩ := cut_above (b := 2 ^ 64) (n := i) (m := parts - i)
    (t := wordsFrom s.1 (dst + i) (parts - i) +
      wordsFrom mem lhs parts * (mem (rhs + i)).toNat) (by decide) (wordsFrom_lt s.1 dst i)
  obtain ⟨hsum, hreport⟩ := cut_add (X := (2 ^ 64) ^ i *
    (wordsFrom mem lhs parts * (mem (rhs + i)).toNat)) h.value h.overflow_iff
  have hnext : wordsFrom mem lhs parts * wordsFrom mem rhs i +
      (2 ^ 64) ^ i * (wordsFrom mem lhs parts * (mem (rhs + i)).toNat) =
        wordsFrom mem lhs parts * wordsFrom mem rhs (i + 1) := by
    rw [wordsFrom_succ]
    ring
  rw [Nat.mul_add, ← Nat.add_assoc, ← hsplit, Nat.add_sub_cancel' (Nat.le_of_lt hi)] at hcut hover
  rw [hnext] at hsum hreport
  constructor
  · intro j hj
    exact (hframe j (by omega)).trans (h.frame j hj)
  · dsimp only
    rw [hsplit, hlow, hstored.value, htotal, hcut, hsum]
  · rw [Bool.or_eq_true, hstored.overflow_iff, htotal, hover]
    exact hreport

theorem tcMultiply_spec {parts : Nat} (hpos : 0 < parts) (hparts : parts + 1 < 2 ^ 32)
    (hlhs : Apart dst parts lhs parts) (hrhs : Apart dst parts rhs parts) :
    ∃ mem' o, tcMultiply mem dst lhs rhs parts = some (mem', o) ∧
      Stored mem mem' dst parts o (wordsFrom mem lhs parts * wordsFrom mem rhs parts) := by
  obtain ⟨mem₀, hset, hframe, hzero⟩ := tcSet_spec mem dst hpos
  have hne : dst ≠ lhs ∧ dst ≠ rhs := by
    unfold Apart at hlhs hrhs
    omega
  have hstart : Accumulated mem dst lhs rhs parts 0 (mem₀, false) := by
    refine ⟨hframe, ?_, ?_⟩
    · rw [wordsFrom_zero, Nat.mul_zero, Nat.zero_mod]
      exact wordsFrom_zeros hzero
    · rw [wordsFrom_zero, Nat.mul_zero]
      exact ⟨fun h => absurd h Bool.false_ne_true,
        fun h => absurd h (Nat.not_le.mpr (pow_pos (by decide) parts))⟩
  have hloop : ∃ s, (List.range parts).foldlM (fun (s : Words64 × Bool) i => do
      let (mem, o) ← tcMultiplyPart s.1 (dst + i) lhs (s.1 (rhs + i)) 0 parts (parts - i) true
      some (mem, s.2 || o)) (mem₀, false) = some s ∧ Accumulated mem dst lhs rhs parts parts s := by
    apply foldlM_range_rule (Accumulated mem dst lhs rhs parts) hstart
    intro i hi s hs
    obtain ⟨mem', o, hpart, hnext⟩ := hs.step hparts hlhs hrhs hi
    refine ⟨_, ?_, hnext⟩
    rw [hpart]
    rfl
  obtain ⟨⟨mem', o⟩, hrun, hend⟩ := hloop
  refine ⟨mem', o, ?_, ?_⟩
  · unfold tcMultiply
    rw [if_neg (not_not.mpr hne), hset]
    exact hrun
  · refine ⟨hend.frame, hend.value, hend.overflow_iff.trans ?_⟩
    rw [Nat.ne_zero_iff_zero_lt, Nat.div_pos_iff]
    exact (and_iff_right (pow_pos (by decide) parts)).symm

/-- What holds of memory after `i` words of the narrower operand: the rows so far stand in the words
up to the last carry. -/
structure FullyAccumulated (mem : Words64) (dst lhs rhs lhsParts rhsParts i : Nat)
    (mem' : Words64) : Prop where
  frame : ∀ j, j < dst ∨ dst + (lhsParts + rhsParts) ≤ j → mem' j = mem j
  value : wordsFrom mem' dst (i + rhsParts) = wordsFrom mem lhs i * wordsFrom mem rhs rhsParts

theorem FullyAccumulated.step {lhsParts rhsParts i : Nat} {mem' : Words64}
    (hparts : rhsParts + 1 < 2 ^ 32) (hlhs : Apart dst (lhsParts + rhsParts) lhs lhsParts)
    (hrhs : Apart dst (lhsParts + rhsParts) rhs rhsParts) (hi : i < lhsParts)
    (h : FullyAccumulated mem dst lhs rhs lhsParts rhsParts i mem') :
    ∃ mem'' o, tcMultiplyPart mem' (dst + i) rhs (mem' (lhs + i)) 0 rhsParts
        ((rhsParts + 1) % 2 ^ 32) true = some (mem'', o) ∧
      FullyAccumulated mem dst lhs rhs lhsParts rhsParts (i + 1) mem'' := by
  unfold Apart at hlhs hrhs
  rw [Nat.mod_eq_of_lt hparts]
  obtain ⟨mem'', o, hrun, hstored⟩ := tcMultiplyPart_spec mem' (mem' (lhs + i)) 0 true
    (show dst + i ≤ rhs ∨ rhs + rhsParts ≤ dst + i by omega)
    (show rhsParts + 1 ≤ (rhsParts + 1) % 2 ^ 32 by omega)
  refine ⟨mem'', o, hrun, ?_⟩
  have hframe := hstored.frame
  have hword : mem' (lhs + i) = mem (lhs + i) := h.frame (lhs + i) (by omega)
  have hright : wordsFrom mem' rhs rhsParts = wordsFrom mem rhs rhsParts :=
    wordsFrom_congr fun j hlo hhi => h.frame j (by omega)
  have htotal : partTotal mem' (dst + i) rhs (mem' (lhs + i)) 0 rhsParts (rhsParts + 1) true =
      wordsFrom mem' (dst + i) rhsParts +
        wordsFrom mem rhs rhsParts * (mem (lhs + i)).toNat := by
    unfold partTotal
    rw [hword, hright, Nat.min_eq_right (Nat.le_succ rhsParts)]
    rfl
  -- The word of the carry has not been used before, and the row fits with it.
  have hfits : wordsFrom mem' (dst + i) rhsParts +
      wordsFrom mem rhs rhsParts * (mem (lhs + i)).toNat < (2 ^ 64) ^ (rhsParts + 1) := by
    have hdst := wordsFrom_lt mem' (dst + i) rhsParts
    have hrhs := wordsFrom_lt mem rhs rhsParts
    have hmul := Nat.mul_le_mul (Nat.le_of_lt hrhs) (Nat.le_sub_one_of_lt (mem (lhs + i)).isLt)
    rw [pow_succ]
    omega
  have hlow : wordsFrom mem'' dst i = wordsFrom mem' dst i :=
    wordsFrom_congr fun j _ hhi => hframe j (.inl hhi)
  constructor
  · intro j hj
    exact (hframe j (by omega)).trans (h.frame j hj)
  · have hvalue := h.value
    rw [wordsFrom_add] at hvalue
    have hcount : i + 1 + rhsParts = i + (rhsParts + 1) := by omega
    rw [hcount, wordsFrom_add, hlow, hstored.value, htotal, Nat.mod_eq_of_lt hfits, Nat.mul_add,
      ← Nat.add_assoc, hvalue, wordsFrom_succ]
    ring

theorem fullMultiplyNarrow_spec (mem : Words64) {lhsParts rhsParts : Nat} (hpos : 0 < rhsParts)
    (hparts : rhsParts + 1 < 2 ^ 32) (hne : dst ≠ lhs ∧ dst ≠ rhs)
    (hlhs : Apart dst (lhsParts + rhsParts) lhs lhsParts)
    (hrhs : Apart dst (lhsParts + rhsParts) rhs rhsParts) :
    ∃ mem', fullMultiplyNarrow mem dst lhs rhs lhsParts rhsParts = some mem' ∧
      FullyAccumulated mem dst lhs rhs lhsParts rhsParts lhsParts mem' := by
  obtain ⟨mem₀, hset, hframe, hzero⟩ := tcSet_spec mem dst hpos
  have hstart : FullyAccumulated mem dst lhs rhs lhsParts rhsParts 0 mem₀ := by
    refine ⟨fun j hj => hframe j (by omega), ?_⟩
    rw [wordsFrom_zero, Nat.zero_mul, Nat.zero_add]
    exact wordsFrom_zeros hzero
  have hloop : ∃ s, (List.range lhsParts).foldlM (fun mem i => do
      let (mem, _) ← tcMultiplyPart mem (dst + i) rhs (mem (lhs + i)) 0 rhsParts
        ((rhsParts + 1) % 2 ^ 32) true
      some mem) mem₀ = some s ∧
        FullyAccumulated mem dst lhs rhs lhsParts rhsParts lhsParts s := by
    apply foldlM_range_rule (FullyAccumulated mem dst lhs rhs lhsParts rhsParts) hstart
    intro i hi s hs
    obtain ⟨mem', o, hpart, hnext⟩ := hs.step hparts hlhs hrhs hi
    refine ⟨mem', ?_, hnext⟩
    rw [hpart]
    rfl
  obtain ⟨mem', hrun, hend⟩ := hloop
  refine ⟨mem', ?_, hend⟩
  unfold fullMultiplyNarrow
  rw [if_neg (not_not.mpr hne), hset]
  exact hrun

theorem tcFullMultiply_spec {lhsParts rhsParts : Nat} (hpos : 0 < lhsParts ∨ 0 < rhsParts)
    (hleft : lhsParts + 1 < 2 ^ 32) (hright : rhsParts + 1 < 2 ^ 32) (hne : dst ≠ lhs ∧ dst ≠ rhs)
    (hlhs : Apart dst (lhsParts + rhsParts) lhs lhsParts)
    (hrhs : Apart dst (lhsParts + rhsParts) rhs rhsParts) :
    ∃ mem', tcFullMultiply mem dst lhs rhs lhsParts rhsParts = some mem' ∧
      (∀ j, j < dst ∨ dst + (lhsParts + rhsParts) ≤ j → mem' j = mem j) ∧
        wordsFrom mem' dst (lhsParts + rhsParts) =
          wordsFrom mem lhs lhsParts * wordsFrom mem rhs rhsParts := by
  unfold tcFullMultiply
  by_cases hswap : rhsParts < lhsParts
  · rw [if_pos hswap]
    rw [Nat.add_comm lhsParts rhsParts] at hlhs hrhs
    obtain ⟨mem', hrun, hend⟩ := fullMultiplyNarrow_spec mem (by omega) hleft hne.symm
      hrhs hlhs
    rw [Nat.add_comm lhsParts rhsParts, Nat.mul_comm]
    exact ⟨mem', hrun, hend.frame, hend.value⟩
  · rw [if_neg hswap]
    obtain ⟨mem', hrun, hend⟩ := fullMultiplyNarrow_spec mem (by omega) hright hne
      hlhs hrhs
    exact ⟨mem', hrun, hend.frame, hend.value⟩

end Many

/-- The three functions, for operands of at least one word and fewer than `unsigned` counts with
one more. -/
theorem multiplication_exact (mem : Words64) (dst : Nat) :
    (∀ lhs rhs parts, 0 < parts → parts + 1 < 2 ^ 32 → Apart dst parts lhs parts →
      Apart dst parts rhs parts → ∃ mem' o, tcMultiply mem dst lhs rhs parts = some (mem', o) ∧
        Stored mem mem' dst parts o (wordsFrom mem lhs parts * wordsFrom mem rhs parts)) ∧
    (∀ lhs rhs lhsParts rhsParts, 0 < lhsParts ∨ 0 < rhsParts → lhsParts + 1 < 2 ^ 32 →
      rhsParts + 1 < 2 ^ 32 → dst ≠ lhs ∧ dst ≠ rhs →
      Apart dst (lhsParts + rhsParts) lhs lhsParts →
      Apart dst (lhsParts + rhsParts) rhs rhsParts →
      ∃ mem', tcFullMultiply mem dst lhs rhs lhsParts rhsParts = some mem' ∧
        (∀ j, j < dst ∨ dst + (lhsParts + rhsParts) ≤ j → mem' j = mem j) ∧
          wordsFrom mem' dst (lhsParts + rhsParts) =
            wordsFrom mem lhs lhsParts * wordsFrom mem rhs rhsParts) ∧
    ∀ src (multiplier carry : BitVec 64) srcParts dstParts add,
      dst ≤ src ∨ src + srcParts ≤ dst → dstParts ≤ (srcParts + 1) % 2 ^ 32 →
      ∃ mem' o, tcMultiplyPart mem dst src multiplier carry srcParts dstParts add =
          some (mem', o) ∧
        Stored mem mem' dst dstParts o
          (partTotal mem dst src multiplier carry srcParts dstParts add) :=
  ⟨fun _ _ _ hpos hparts hlhs hrhs => tcMultiply_spec hpos hparts hlhs hrhs,
    fun _ _ _ _ hpos hleft hright hne hlhs hrhs =>
      tcFullMultiply_spec hpos hleft hright hne hlhs hrhs,
    fun _ multiplier carry _ _ add hplace hparts =>
      tcMultiplyPart_spec mem multiplier carry add hplace hparts⟩

/-- Two words by two words, with a product that does not fit. -/
theorem multiplication_exact_small :
    ∃ mem' o, tcMultiply (BitVec.ofNat 64) 0 2 4 2 = some (mem', o) ∧
      Stored (BitVec.ofNat 64) mem' 0 2 o
        (wordsFrom (BitVec.ofNat 64) 2 2 * wordsFrom (BitVec.ofNat 64) 4 2) :=
  (multiplication_exact (BitVec.ofNat 64) 0).1 2 4 2 (by decide) (by decide) (.inl (by decide))
    (.inl (by decide))

theorem tcMultiply_longest (mem : Words64) (dst lhs rhs : Nat) {parts : Nat}
    (hparts : parts + 1 = 2 ^ 32) : tcMultiply mem dst lhs rhs parts = none := by
  unfold tcMultiply
  by_cases hne : dst ≠ lhs ∧ dst ≠ rhs
  · obtain ⟨mem₀, hset, -, -⟩ := tcSet_spec mem dst (show 0 < parts by omega)
    obtain ⟨k, hk⟩ : ∃ k, parts = k + 1 := ⟨parts - 1, by omega⟩
    have hpart : tcMultiplyPart mem₀ (dst + 0) lhs (mem₀ (rhs + 0)) 0 parts (parts - 0) true =
        none := by
      apply if_pos
      omega
    rw [if_neg (not_not.mpr hne), hset]
    change (List.range parts).foldlM _ (mem₀, false) = none
    rw [show List.range parts = 0 :: (List.range k).map Nat.succ from
      hk ▸ List.range_succ_eq_map, List.foldlM_cons]
    dsimp only
    rw [hpart]
    rfl
  · rw [if_pos hne]

/-- The last word of a full product is stored to, not added to; and there are no operations on no
words, or on as many words as `unsigned` can count. -/
theorem top_word_overwritten :
    (∃ mem' o, tcMultiplyPart (fun _ => 1) 0 2 1 0 1 2 true = some (mem', o) ∧
      wordsFrom mem' 0 2 ≠
        (wordsFrom (fun _ => 1) 0 2 + wordsFrom (fun _ => 1) 2 1 * 1 + 0) % (2 ^ 64) ^ 2) ∧
    tcMultiply (fun _ => 1) 0 1 2 0 = none ∧ tcFullMultiply (fun _ => 1) 0 1 2 0 0 = none ∧
    tcMultiply (fun _ => 1) 0 (2 ^ 33) (2 ^ 34) (2 ^ 32 - 1) = none ∧
    ∃ mem', tcFullMultiply (fun _ => 1) 0 (2 ^ 33) (2 ^ 34) 1 (2 ^ 32 - 1) = some mem' ∧
      mem' 0 = 0 := by
  refine ⟨⟨_, _, rfl, by decide⟩, rfl, rfl, ?_, ⟨_, rfl, rfl⟩⟩
  exact tcMultiply_longest _ _ _ _ (by decide)

end SmlnjLlvm.Support.APInt
