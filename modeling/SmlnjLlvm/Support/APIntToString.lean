import SmlnjLlvm.Support.APIntFromString
import SmlnjLlvm.Support.APIntGcd

/-!
# Writing an integer as a string

The digits come from the remainders of the magnitude, the last one first: into a
buffer where the integer has one word, else at the end of the string, where they
are reversed afterwards. What is written is read back as the same integer.
-/

namespace SmlnjLlvm.APIntOps

open Numerals Loop

variable {w : Nat}

def BothDigits : List Char :=
  ['0', '1', '2', '3', '4', '5', '6', '7', '8', '9', 'a', 'b', 'c', 'd', 'e', 'f', 'g', 'h',
   'i', 'j', 'k', 'l', 'm', 'n', 'o', 'p', 'q', 'r', 's', 't', 'u', 'v', 'w', 'x', 'y', 'z',
   '0', '1', '2', '3', '4', '5', '6', '7', '8', '9', 'A', 'B', 'C', 'D', 'E', 'F', 'G', 'H',
   'I', 'J', 'K', 'L', 'M', 'N', 'O', 'P', 'Q', 'R', 'S', 'T', 'U', 'V', 'W', 'X', 'Y', 'Z']

def digitChar (UpperCase : Bool) (digit : Nat) : Option Char :=
  BothDigits[(if UpperCase then 36 else 0) + digit]?

def literalPrefix (Radix : Nat) (formatAsCLiteral : Bool) : Option (List Char) :=
  if formatAsCLiteral then
    if Radix = 2 then some ['0', 'b']
    else if Radix = 8 then some ['0']
    else if Radix = 10 then some []
    else if Radix = 16 then some ['0', 'x']
    else none
  else some []

/-- A turn of the loop over a word. The buffer has 65 characters and is filled from its end. -/
def wordTurn (Radix : Nat) (UpperCase : Bool) (s : BitVec 64 × List Char) :
    Option (Turn (BitVec 64 × List Char) (List Char)) :=
  let (N, Buffer) := s
  if N ≠ 0 then
    if Buffer.length < 65 then
      (digitChar UpperCase (N % BitVec.ofNat 64 Radix).toNat).map fun c =>
        .next (N / BitVec.ofNat 64 Radix, c :: Buffer)
    else none
  else some (.exit Buffer)

def shiftTurn (Radix : Nat) (UpperCase : Bool) (s : BitVec w × List Char) :
    Option (Turn (BitVec w × List Char) (List Char)) :=
  let (Tmp, Str) := s
  if Tmp ≠ 0 then do
    let Digit := (Tmp.setWidth 64).setWidth 32 &&& BitVec.ofNat 32 (Radix - 1)
    let c ← digitChar UpperCase Digit.toNat
    let Tmp ← lshrInPlace Tmp (radixShift Radix)
    some (.next (Tmp, Str ++ [c]))
  else some (.exit Str)

def divTurn (Radix : Nat) (UpperCase : Bool) (s : BitVec w × List Char) :
    Option (Turn (BitVec w × List Char) (List Char)) :=
  let (Tmp, Str) := s
  if Tmp ≠ 0 then
    let Digit := Tmp.toNat % Radix
    if Digit < Radix then
      (digitChar UpperCase Digit).map fun c =>
        .next (BitVec.ofNat w (Tmp.toNat / Radix), Str ++ [c])
    else none
  else some (.exit Str)

def signedWord (Str : List Char) (Signed : Bool) (A : BitVec w) : List Char × BitVec 64 :=
  if !Signed then (Str, A.setWidth 64)
  else
    let I := A.signExtend 64
    if !I.msb then (Str, I) else (Str ++ ['-'], -I)

def signedWords (Str : List Char) (Signed : Bool) (A : BitVec w) : List Char × BitVec w :=
  if Signed && A.msb then (Str ++ ['-'], -A) else (Str, A)

def writeDigits (turns Radix : Nat) (UpperCase : Bool) (s : BitVec w × List Char) :
    Option (List Char) :=
  if Radix = 2 ∨ Radix = 8 ∨ Radix = 16 then loop (shiftTurn Radix UpperCase) turns s
  else loop (divTurn Radix UpperCase) turns s

def toString (turns : Nat) (Str : List Char) (A : BitVec w) (Radix : Nat)
    (Signed formatAsCLiteral UpperCase : Bool) : Option (List Char) :=
  if isRadix Radix then do
    let Prefix ← literalPrefix Radix formatAsCLiteral
    if A = 0 then some (Str ++ Prefix ++ ['0'])
    else if w ≤ 64 then
      let (Str, N) := signedWord Str Signed A
      let Buffer ← loop (wordTurn Radix UpperCase) turns (N, [])
      some (Str ++ Prefix ++ Buffer)
    else
      let (Str, Tmp) := signedWords Str Signed A
      let Str := Str ++ Prefix
      let StartDig := Str.length
      let Str ← writeDigits turns Radix UpperCase (Tmp, Str)
      some (Str.take StartDig ++ (Str.drop StartDig).reverse)
  else none

theorem digitChar_spec (UpperCase : Bool) {d : Nat} (hd : d < 36) :
    ∃ c, digitChar UpperCase d = some c ∧ digitValue c = d := by
  have hall : ∀ up : Bool, ∀ d < 36, (digitChar up d).map digitValue = some d := by decide
  have h := hall UpperCase d hd
  exact Option.map_eq_some_iff.mp h

theorem isRadix_bounds {Radix : Nat} (h : isRadix Radix) : 1 < Radix ∧ Radix ≤ 36 := by
  unfold isRadix at h
  omega

section Loops

variable {Radix : Nat} {turns : Nat}

theorem wordLoop_spec (hradix : isRadix Radix) (UpperCase : Bool) (N : BitVec 64)
    (hturns : (Radix.digits N.toNat).length < turns) :
    ∃ cs : List Char, loop (wordTurn Radix UpperCase) turns (N, []) =
        some (cs.foldl (fun L c => c :: L) []) ∧
      cs.map digitValue = Radix.digits N.toNat := by
  obtain ⟨hone, hle⟩ := isRadix_bounds hradix
  have hbase : (BitVec.ofNat 64 Radix).toNat = Radix := Nat.mod_eq_of_lt (by omega)
  have hroom : (Radix.digits N.toNat).length ≤ 64 :=
    (Nat.digits_length_le_iff hone _).mpr
      (N.isLt.trans_le (Nat.pow_le_pow_left hone 64))
  refine loop_digits hone BitVec.toNat (fun L c => c :: L) 65 (fun _ _ => rfl) ?_ ?_ turns N [] ?_
    hturns
  · intro M L hM
    have hzero : M = 0 := BitVec.eq_of_toNat_eq hM
    exact if_neg (not_not.mpr hzero)
  · intro M L hM hroom
    have hne : M ≠ 0 := fun h => hM (congrArg BitVec.toNat h)
    obtain ⟨c, hc, hval⟩ := digitChar_spec UpperCase ((Nat.mod_lt M.toNat (by omega)).trans_le hle)
    refine ⟨M / BitVec.ofNat 64 Radix, c, ?_, ?_, hval⟩
    · unfold wordTurn
      dsimp only
      rw [if_pos hne, if_pos hroom, BitVec.toNat_umod, hbase, hc]
      rfl
    · rw [BitVec.toNat_udiv, hbase]
  · exact (Nat.zero_add _).trans_le (hroom.trans (by decide))

theorem divLoop_spec (hradix : isRadix Radix) (UpperCase : Bool) (Tmp : BitVec w)
    (Str : List Char) (hturns : (Radix.digits Tmp.toNat).length < turns) :
    ∃ cs : List Char, loop (divTurn Radix UpperCase) turns (Tmp, Str) =
        some (cs.foldl (fun L c => L ++ [c]) Str) ∧
      cs.map digitValue = Radix.digits Tmp.toNat := by
  obtain ⟨hone, hle⟩ := isRadix_bounds hradix
  refine loop_digits hone BitVec.toNat (fun L c => L ++ [c])
    (Str.length + (Radix.digits Tmp.toNat).length) (fun _ _ => List.length_append) ?_ ?_ turns Tmp
    Str (Nat.le_refl _) hturns
  · intro M L hM
    have hzero : M = 0 := BitVec.eq_of_toNat_eq hM
    exact if_neg (not_not.mpr hzero)
  · intro M L hM _
    have hne : M ≠ 0 := fun h => hM (congrArg BitVec.toNat h)
    have hlt := Nat.mod_lt M.toNat (show 0 < Radix by omega)
    obtain ⟨c, hc, hval⟩ := digitChar_spec UpperCase (hlt.trans_le hle)
    refine ⟨BitVec.ofNat w (M.toNat / Radix), c, ?_, ?_, hval⟩
    · unfold divTurn
      dsimp only
      rw [if_pos hne, if_pos hlt, hc]
      rfl
    · exact Nat.mod_eq_of_lt ((Nat.div_le_self _ _).trans_lt M.isLt)

theorem shiftLoop_spec (hradix : isRadix Radix) (UpperCase : Bool) (hwidth : 64 < w)
    (hpow : Radix = 2 ∨ Radix = 8 ∨ Radix = 16) (Tmp : BitVec w) (Str : List Char)
    (hturns : (Radix.digits Tmp.toNat).length < turns) :
    ∃ cs : List Char, loop (shiftTurn Radix UpperCase) turns (Tmp, Str) =
        some (cs.foldl (fun L c => L ++ [c]) Str) ∧
      cs.map digitValue = Radix.digits Tmp.toNat := by
  obtain ⟨hone, hle⟩ := isRadix_bounds hradix
  have hradixpow : Radix = 2 ^ radixShift Radix ∧ radixShift Radix ≤ 4 := by
    rcases hpow with rfl | rfl | rfl
    · exact ⟨rfl, by decide⟩
    · exact ⟨rfl, by decide⟩
    · exact ⟨rfl, by decide⟩
  refine loop_digits hone BitVec.toNat (fun L c => L ++ [c])
    (Str.length + (Radix.digits Tmp.toNat).length) (fun _ _ => List.length_append) ?_ ?_ turns Tmp
    Str (Nat.le_refl _) hturns
  · intro M L hM
    have hzero : M = 0 := BitVec.eq_of_toNat_eq hM
    exact if_neg (not_not.mpr hzero)
  · intro M L hM _
    have hne : M ≠ 0 := fun h => hM (congrArg BitVec.toNat h)
    have hlt := Nat.mod_lt M.toNat (show 0 < Radix by omega)
    obtain ⟨c, hc, hval⟩ := digitChar_spec UpperCase (hlt.trans_le hle)
    have hmask : ((M.setWidth 64).setWidth 32 &&& BitVec.ofNat 32 (Radix - 1)).toNat =
        M.toNat % Radix := by
      rw [BitVec.toNat_and, BitVec.toNat_setWidth, BitVec.toNat_setWidth, BitVec.toNat_ofNat,
        Nat.mod_eq_of_lt (by omega : Radix - 1 < 2 ^ 32)]
      generalize M.toNat = x
      obtain ⟨hr, hs⟩ := hradixpow
      rw [hr, Nat.and_two_pow_sub_one_eq_mod,
        Nat.mod_mod_of_dvd x (Nat.pow_dvd_pow 2 (by decide : 32 ≤ 64)),
        Nat.mod_mod_of_dvd x (Nat.pow_dvd_pow 2 (by omega))]
    refine ⟨M >>> radixShift Radix, c, ?_, ?_, hval⟩
    · unfold shiftTurn
      dsimp only
      rw [if_pos hne, hmask, hc, lshrInPlace, if_pos (by omega)]
      rfl
    · rw [Words.toNat_shr, ← hradixpow.1]

theorem writeDigits_spec (hradix : isRadix Radix) (UpperCase : Bool) (hwidth : 64 < w)
    (Tmp : BitVec w) (Str : List Char) (hturns : (Radix.digits Tmp.toNat).length < turns) :
    ∃ cs : List Char, writeDigits turns Radix UpperCase (Tmp, Str) = some (Str ++ cs) ∧
      cs.map digitValue = Radix.digits Tmp.toNat := by
  unfold writeDigits
  by_cases hpow : Radix = 2 ∨ Radix = 8 ∨ Radix = 16
  · obtain ⟨cs, hrun, hcs⟩ := shiftLoop_spec hradix UpperCase hwidth hpow Tmp Str hturns
    exact ⟨cs, by rw [if_pos hpow, hrun, foldl_snoc], hcs⟩
  · obtain ⟨cs, hrun, hcs⟩ := divLoop_spec hradix UpperCase Tmp Str hturns
    exact ⟨cs, by rw [if_neg hpow, hrun, foldl_snoc], hcs⟩

end Loops

/-! ## Text -/

def Written (Radix : Nat) (p : List Char) (n : Nat) : Prop :=
  p.map digitValue = if n = 0 then [0] else (Radix.digits n).reverse

theorem Written.digits {Radix n : Nat} {p : List Char} (hradix : isRadix Radix)
    (h : Written Radix p n) : Digits Radix p ∧ digitsValue Radix p = n := by
  obtain ⟨hone, -⟩ := isRadix_bounds hradix
  unfold Written at h
  unfold Digits digitsValue
  rw [h]
  by_cases hzero : n = 0
  · rw [if_pos hzero] at h ⊢
    obtain ⟨c, rfl⟩ : ∃ c, p = [c] := List.length_eq_one_iff.mp (by
      have hlength := congrArg List.length h
      rwa [List.length_map] at hlength)
    refine ⟨⟨List.cons_ne_nil c [], ?_⟩, ?_⟩
    · intro c' hc'
      cases List.mem_singleton.mp hc'
      have hc : digitValue c = 0 := List.head_eq_of_cons_eq h
      omega
    · rw [numeral_singleton, hzero]
  · rw [if_neg hzero] at h ⊢
    refine ⟨⟨?_, ?_⟩, numeral_digits Radix n⟩
    · rintro rfl
      exact hzero (Nat.digits_eq_nil_iff_eq_zero.mp (List.reverse_eq_nil_iff.mp h.symm))
    · intro c hc
      have hmem := List.mem_map_of_mem (f := digitValue) hc
      rw [h, List.mem_reverse] at hmem
      exact Nat.digits_lt_base hone hmem

/-- A magnitude of some width is not too long for the assertions on the width, except that a width
of zero has no room for a bit. -/
theorem Written.suffices {Radix n : Nat} {p : List Char} (hradix : isRadix Radix)
    (h : Written Radix p n) (hn : n < 2 ^ w) :
    (WidthSuffices w p.length Radix ↔ ¬(Radix = 2 ∧ w = 0)) ∧ CanShift w p.length Radix := by
  obtain ⟨hone, -⟩ := isRadix_bounds hradix
  have hlength := congrArg List.length h
  rw [List.length_map] at hlength
  have h3 := sizeMul_le (p.length - 1) 3
  have h4 := sizeMul_le (p.length - 1) 4
  have h64 := sizeMul_le (p.length - 1) 64
  by_cases hlong : 1 < p.length
  · -- One digit fewer still counts a number of the width.
    have hlt : Radix ^ (p.length - 1) < 2 ^ w := by
      have hzero : n ≠ 0 := by
        rintro rfl
        exact absurd hlength hlong.ne'
      rw [if_neg hzero, List.length_reverse] at hlength
      have hle := Nat.base_pow_length_digits_le Radix n hone hzero
      rw [← hlength] at hle
      obtain ⟨k, hk⟩ : ∃ k, p.length = k + 1 := ⟨p.length - 1, by omega⟩
      rw [hk, Nat.pow_succ, Nat.mul_comm] at hle
      rw [hk, Nat.add_sub_cancel]
      exact (Nat.le_of_mul_le_mul_left hle (by omega)).trans_lt hn
    have hexp : ∀ k, 2 ^ k ≤ Radix → k * (p.length - 1) < w := by
      intro k hk
      have hle := Nat.pow_le_pow_left hk (p.length - 1)
      rw [← Nat.pow_mul] at hle
      exact (Nat.pow_lt_pow_iff_right (by decide)).mp (hle.trans_lt hlt)
    unfold WidthSuffices CanShift
    rcases hradix with rfl | rfl | rfl | rfl | rfl
    · have hbits := hexp 3 (by decide)
      have hshift : radixShift 10 = 0 := rfl
      omega
    · have hbits := hexp 3 (by decide)
      have hshift : radixShift 8 = 3 := rfl
      omega
    · have hbits := hexp 4 (by decide)
      have hshift : radixShift 16 = 4 := rfl
      omega
    · have hbits := hexp 1 (by decide)
      have hshift : radixShift 2 = 1 := rfl
      omega
    · have hshift : radixShift 36 = 0 := rfl
      omega
  · have hpos : p.length ≠ 0 := fun hnil => (h.digits hradix).1.1 (List.length_eq_zero_iff.mp hnil)
    refine ⟨?_, fun hlt => absurd hlt hlong⟩
    unfold WidthSuffices
    omega

def signText (Signed : Bool) (A : BitVec w) : List Char := if Signed && A.msb then ['-'] else []

def magnitude (Signed : Bool) (A : BitVec w) : BitVec w := if Signed && A.msb then -A else A

theorem magnitude_ne_zero {A : BitVec w} (Signed : Bool) (h : A ≠ 0) : magnitude Signed A ≠ 0 := by
  unfold magnitude
  split
  · exact neg_ne_zero h
  · exact h

theorem signedWords_eq (Signed : Bool) (A : BitVec w) :
    signedWords [] Signed A = (signText Signed A, magnitude Signed A) := by
  unfold signedWords signText magnitude
  by_cases hneg : (Signed && A.msb) = true
  · rw [if_pos hneg, if_pos hneg, if_pos hneg, List.nil_append]
  · rw [if_neg hneg, if_neg hneg, if_neg hneg]

theorem signedWord_spec (Signed : Bool) {A : BitVec w} (hw : w ≤ 64) :
    ∃ N, signedWord [] Signed A = (signText Signed A, N) ∧ N.toNat = (magnitude Signed A).toNat := by
  have hpow : 2 ^ w ≤ 2 ^ 64 := Nat.pow_le_pow_right (by decide) hw
  have hset : (A.setWidth 64).toNat = A.toNat := by
    rw [BitVec.toNat_setWidth, Nat.mod_eq_of_lt (A.isLt.trans_le hpow)]
  have hint := BitVec.toInt_signExtend_of_le (x := A) hw
  have hmsb : (A.signExtend 64).msb = A.msb := by
    rw [BitVec.msb_eq_toInt, BitVec.msb_eq_toInt, hint]
  unfold signedWord signText magnitude
  dsimp only
  rw [hmsb]
  cases Signed with
  | false => exact ⟨_, rfl, hset⟩
  | true =>
    cases hneg : A.msb with
    | false =>
      refine ⟨_, rfl, ?_⟩
      rw [BitVec.signExtend_eq_setWidth_of_msb_false hneg]
      exact hset
    | true =>
      refine ⟨_, rfl, ?_⟩
      rw [BitVec.toInt_eq_msb_cond, BitVec.toInt_eq_msb_cond, hmsb, if_pos hneg, if_pos hneg] at hint
      have hbits := BitVec.msb_eq_true_iff_two_mul_ge.mp hneg
      change (-A.signExtend 64).toNat = (-A).toNat
      rw [BitVec.toNat_neg, BitVec.toNat_neg, Nat.mod_eq_of_lt (by omega),
        Nat.mod_eq_of_lt (by omega)]
      omega

theorem toString_spec {Radix turns : Nat} (hradix : isRadix Radix) (A : BitVec w)
    (Signed UpperCase : Bool) (hturns : w < turns) :
    ∃ p, toString turns [] A Radix Signed false UpperCase = some (signText Signed A ++ p) ∧
      Written Radix p (magnitude Signed A).toNat := by
  obtain ⟨hone, -⟩ := isRadix_bounds hradix
  unfold toString
  rw [if_pos hradix]
  change ∃ p, (if A = 0 then _ else if w ≤ 64 then _ else _) = _ ∧ _
  by_cases hA : A = 0
  · have hmsb : A.msb = false := by
      rw [hA]
      exact BitVec.msb_zero
    refine ⟨['0'], ?_, ?_⟩
    · rw [if_pos hA, signText, hmsb, Bool.and_false]
      rfl
    · have hzero : (magnitude Signed A).toNat = 0 := by
        rw [magnitude, hmsb, Bool.and_false, if_neg Bool.false_ne_true, hA]
        rfl
      rw [Written, hzero]
      rfl
  have hne : (magnitude Signed A).toNat ≠ 0 := fun h =>
    magnitude_ne_zero Signed hA (BitVec.eq_of_toNat_eq h)
  have hdigits : (Radix.digits (magnitude Signed A).toNat).length < turns :=
    ((Nat.digits_length_le_iff hone _).mpr
      ((magnitude Signed A).isLt.trans_le (Nat.pow_le_pow_left hone w))).trans_lt hturns
  have hwritten : ∀ cs : List Char,
      cs.map digitValue = Radix.digits (magnitude Signed A).toNat →
        Written Radix cs.reverse (magnitude Signed A).toNat := by
    intro cs hcs
    rw [Written, if_neg hne, List.map_reverse, hcs]
  rw [if_neg hA]
  by_cases hw : w ≤ 64
  · obtain ⟨N, hN, hval⟩ := signedWord_spec Signed (A := A) hw
    rw [← hval] at hdigits
    obtain ⟨cs, hrun, hcs⟩ := wordLoop_spec hradix UpperCase N hdigits
    rw [hval] at hcs
    refine ⟨cs.reverse, ?_, hwritten cs hcs⟩
    rw [if_pos hw, hN]
    dsimp only
    rw [hrun, List.foldl_flip_cons_eq_append', List.append_nil, List.append_nil]
    rfl
  · obtain ⟨cs, hrun, hcs⟩ := writeDigits_spec hradix UpperCase (by omega) (magnitude Signed A)
      (signText Signed A ++ []) hdigits
    refine ⟨cs.reverse, ?_, hwritten cs hcs⟩
    rw [if_neg hw, signedWords_eq]
    dsimp only
    rw [hrun]
    change some (List.take _ _ ++ (List.drop _ _).reverse) = _
    rw [List.take_left, List.drop_left, List.append_nil]

theorem splitSign_digits {Radix : Nat} {p : List Char} (hradix : isRadix Radix)
    (hp : Digits Radix p) : splitSign p = (false, p) := by
  obtain ⟨-, hle⟩ := isRadix_bounds hradix
  unfold splitSign
  split
  · have hlt := hp.2 '-' List.mem_cons_self
    have hval : digitValue '-' = 36 := by decide
    omega
  · have hlt := hp.2 '+' List.mem_cons_self
    have hval : digitValue '+' = 36 := by decide
    omega
  · rfl

theorem signed_magnitude (Signed : Bool) (A : BitVec w) :
    BitVec.ofInt w (signed (Signed && A.msb) (magnitude Signed A).toNat) = A := by
  unfold signed magnitude
  by_cases hneg : (Signed && A.msb) = true
  · rw [if_pos hneg, if_pos hneg, BitVec.ofInt_neg, BitVec.ofInt_natCast, BitVec.ofNat_toNat,
      BitVec.setWidth_eq, BitVec.neg_neg]
  · rw [if_neg hneg, if_neg hneg, BitVec.ofInt_natCast, BitVec.ofNat_toNat, BitVec.setWidth_eq]

theorem fromString_toString {Radix turns : Nat} (hradix : isRadix Radix) (A : BitVec w)
    (Signed UpperCase : Bool) (hturns : w < turns) :
    (toString turns [] A Radix Signed false UpperCase).bind (fromString w · Radix) = some A ↔
      ¬(Radix = 2 ∧ w = 0) := by
  obtain ⟨p, hrun, hwritten⟩ := toString_spec hradix A Signed UpperCase hturns
  obtain ⟨hp, hvalue⟩ := hwritten.digits hradix
  obtain ⟨hwidth, hshift⟩ := hwritten.suffices hradix (magnitude Signed A).isLt
  have hsplit : splitSign (signText Signed A ++ p) = (Signed && A.msb, p) := by
    unfold signText
    by_cases hneg : (Signed && A.msb) = true
    · rw [if_pos hneg, hneg]
      rfl
    · rw [if_neg hneg, Bool.eq_false_iff.mpr hneg, List.nil_append, splitSign_digits hradix hp]
  rw [hrun, Option.bind_some, ← hwidth]
  constructor
  · intro hread
    by_contra hfail
    rw [fromString_none hradix hsplit hp fun h => hfail h.1] at hread
    cases hread
  · intro h
    rw [fromString_eq hradix hsplit hp h hshift, hvalue, signed_magnitude]

end SmlnjLlvm.APIntOps
