import SmlnjLlvm.Support.APIntDivision

/-!
# Negation of integers of any width

The complement of all words, with one added to it. Both steps clear the unused
bits, so that the value is the negative one modulo the width.
-/

namespace SmlnjLlvm.Support.APInt

open Digits

def tcComplement (dst : Words64) (parts : Nat) : Words64 := fun i =>
  if i < parts then ~~~dst i else dst i

/-- The words from `i` on of the loop of `tcAddPart`, of which `parts` are left. -/
def tcAddPartFrom (dst : Words64) (src : BitVec 64) (i : Nat) : Nat → Words64 × BitVec 64
  | 0 => (dst, 1)
  | parts + 1 =>
    let dst := Function.update dst i (dst i + src)
    -- no need to carry so exit early
    if src ≤ dst i then (dst, 0) else tcAddPartFrom dst 1 (i + 1) parts

def tcAddPart (dst : Words64) (src : BitVec 64) (parts : Nat) : Words64 × BitVec 64 :=
  tcAddPartFrom dst src 0 parts

def tcIncrement (dst : Words64) (parts : Nat) : Words64 × BitVec 64 := tcAddPart dst 1 parts

def flipAllBits (A : APInt) : APInt :=
  if A.isSingleWord then
    clearUnusedBits { A with pVal := Function.update A.pVal 0 (A.pVal 0 ^^^ BitVec.allOnes 64) }
  else clearUnusedBits { A with pVal := tcComplement A.pVal A.getNumWords }

/-- The prefix operator `++`. -/
def increment (A : APInt) : APInt :=
  if A.isSingleWord then
    clearUnusedBits { A with pVal := Function.update A.pVal 0 (A.pVal 0 + 1) }
  else clearUnusedBits { A with pVal := (tcIncrement A.pVal A.getNumWords).1 }

def negate (A : APInt) : APInt := increment (flipAllBits A)

/-- The bit at the last position; a width of zero has none. -/
def isNegative (A : APInt) : Bool :=
  let bitPosition := A.BitWidth - 1
  (A.pVal (bitPosition / APINT_BITS_PER_WORD)).getLsbD (bitPosition % APINT_BITS_PER_WORD)

theorem value_update (w : Words64) (i n : Nat) (v : BitVec 64) {lo : Nat} (h : i < lo) :
    value (2 ^ 64) (fun j => (Function.update w i v j).toNat) lo n =
      value (2 ^ 64) (fun j => (w j).toNat) lo n := by
  apply value_congr
  intro j hj
  rw [Function.update_of_ne (by omega)]

theorem tcAddPartFrom_stop {dst : Words64} {src : BitVec 64} {i : Nat} (h : src ≤ dst i + src)
    (n : Nat) : tcAddPartFrom dst src i (n + 1) = (Function.update dst i (dst i + src), 0) := by
  rw [tcAddPartFrom, Function.update_self, if_pos h]

theorem tcAddPartFrom_carry {dst : Words64} {src : BitVec 64} {i : Nat} (h : ¬src ≤ dst i + src)
    (n : Nat) : tcAddPartFrom dst src i (n + 1) =
      tcAddPartFrom (Function.update dst i (dst i + src)) 1 (i + 1) n := by
  rw [tcAddPartFrom, Function.update_self, if_neg h]

theorem tcAddPartFrom_below (dst : Words64) (src : BitVec 64) (i n : Nat) {j : Nat} (hj : j < i) :
    (tcAddPartFrom dst src i n).1 j = dst j := by
  induction n generalizing dst src i with
  | zero => rfl
  | succ n ih =>
    by_cases hle : src ≤ dst i + src
    · rw [tcAddPartFrom_stop hle]
      exact Function.update_of_ne (by omega) _ _
    · rw [tcAddPartFrom_carry hle, ih _ _ _ (by omega), Function.update_of_ne (by omega)]

theorem tcAddPartFrom_value (dst : Words64) (src : BitVec 64) (i n : Nat) :
    value (2 ^ 64) (fun j => ((tcAddPartFrom dst src i (n + 1)).1 j).toNat) i (n + 1) +
        (tcAddPartFrom dst src i (n + 1)).2.toNat * (2 ^ 64) ^ (n + 1) =
      value (2 ^ 64) (fun j => (dst j).toNat) i (n + 1) + src.toNat := by
  have hone : (1 : BitVec 64).toNat = 1 := rfl
  induction n generalizing dst src i with
  | zero =>
    have hsum : (dst i + src).toNat = ((dst i).toNat + src.toNat) % 2 ^ 64 := BitVec.toNat_add _ _
    rw [value_one, value_one, pow_one]
    by_cases hle : src ≤ dst i + src
    · rw [tcAddPartFrom_stop hle]
      rw [BitVec.le_def] at hle
      change (Function.update dst i (dst i + src) i).toNat + 0 * _ = _
      rw [Function.update_self]
      omega
    · rw [tcAddPartFrom_carry hle]
      rw [BitVec.le_def] at hle
      change (Function.update dst i (dst i + src) i).toNat + 1 * _ = _
      rw [Function.update_self]
      omega
  | succ n ih =>
    have hsum : (dst i + src).toNat = ((dst i).toNat + src.toNat) % 2 ^ 64 := BitVec.toNat_add _ _
    have hnext : i < i + 1 := Nat.lt_succ_self i
    rw [value_succ' i (n + 1), value_succ' i (n + 1)]
    by_cases hle : src ≤ dst i + src
    · rw [tcAddPartFrom_stop hle]
      rw [BitVec.le_def] at hle
      dsimp only
      rw [value_update dst i (n + 1) _ hnext, Function.update_self]
      change _ + 0 * _ = _
      omega
    · rw [tcAddPartFrom_carry hle, tcAddPartFrom_below _ _ _ _ hnext, Function.update_self]
      rw [BitVec.le_def] at hle
      have hrest := ih (Function.update dst i (dst i + src)) 1 (i + 1)
      rw [value_update dst i (n + 1) _ hnext, hone] at hrest
      rw [pow_succ' (2 ^ 64) (n + 1), Nat.mul_left_comm]
      omega

theorem tcIncrement_value (dst : Words64) {n : Nat} (hn : 0 < n) :
    wordsVal (tcIncrement dst n).1 n = (wordsVal dst n + 1) % (2 ^ 64) ^ n := by
  obtain ⟨m, rfl⟩ := Nat.exists_eq_succ_of_ne_zero (Nat.ne_of_gt hn)
  have hvalue := tcAddPartFrom_value dst 1 0 m
  have hlt := wordsVal_lt (tcIncrement dst (m + 1)).1 (m + 1)
  change wordsVal (tcIncrement dst (m + 1)).1 (m + 1) + _ = wordsVal dst (m + 1) + 1 at hvalue
  rw [← hvalue, Nat.add_mul_mod_self_right, Nat.mod_eq_of_lt hlt]

theorem tcComplement_value (dst : Words64) (n : Nat) :
    wordsVal (tcComplement dst n) n + wordsVal dst n + 1 = (2 ^ 64) ^ n := by
  have hall : ∀ m, m ≤ n → wordsVal (tcComplement dst n) m + wordsVal dst m + 1 = (2 ^ 64) ^ m := by
    intro m hm
    induction m with
    | zero => rfl
    | succ m ih =>
      have hword : (tcComplement dst n m).toNat + (dst m).toNat + 1 = 2 ^ 64 := by
        rw [tcComplement, if_pos (by omega), BitVec.toNat_not]
        omega
      have hpow : (2 ^ 64) ^ (m + 1) =
          ((tcComplement dst n m).toNat + (dst m).toNat + 1) * (2 ^ 64) ^ m := by
        rw [hword, pow_succ']
      rw [wordsVal_succ, wordsVal_succ, hpow, Nat.add_mul, Nat.add_mul, Nat.one_mul]
      omega
  exact hall n (Nat.le_refl n)

theorem clearUnusedBits_width (A : APInt) : (clearUnusedBits A).BitWidth = A.BitWidth := by
  unfold clearUnusedBits
  dsimp only
  split
  · rfl
  · rfl

theorem numWords_congr {A B : APInt} (h : A.BitWidth = B.BitWidth) : A.numWords = B.numWords := by
  unfold numWords isSingleWord getNumWords
  rw [h]

theorem clearUnusedBits_words (A : APInt) (hwidth : 0 < A.BitWidth) :
    (clearUnusedBits A).pVal = Function.update A.pVal (A.numWords - 1)
      (A.pVal (A.numWords - 1) &&&
        BitVec.allOnes 64 >>> (64 - ((A.BitWidth - 1) % 64 + 1))) := by
  have hne : ¬A.BitWidth = 0 := Nat.ne_of_gt hwidth
  unfold clearUnusedBits
  by_cases hsingle : A.isSingleWord = true
  · simp only [if_pos hsingle, if_neg hne, numWords_single hsingle]
    rfl
  · simp only [if_neg hsingle, if_neg hne, numWords_multi hsingle]
    rfl

theorem clearUnusedBits_val (A : APInt) :
    (clearUnusedBits A).val = A.val % 2 ^ A.BitWidth := by
  obtain ⟨hpos, hbits⟩ := numWords_spec A
  have hwords := numWords_congr (clearUnusedBits_width A)
  rcases Nat.eq_zero_or_pos A.BitWidth with hzero | hwidth
  · have hsingle : A.isSingleWord = true := isSingleWord_iff.mpr (by omega)
    have hpVal : (clearUnusedBits A).pVal = Function.update A.pVal 0 (A.pVal 0 &&& 0) := by
      unfold clearUnusedBits
      rw [if_pos hsingle, if_pos hzero]
    have hzero' : A.pVal 0 &&& (0 : BitVec 64) = 0 := BitVec.and_zero
    rw [hzero, pow_zero, Nat.mod_one, val, hwords, hpVal, numWords_single hsingle, wordsVal_one,
      Function.update_self, hzero']
    rfl
  · have hlast := hbits hwidth
    obtain ⟨n, hn⟩ := Nat.exists_eq_add_of_lt hpos
    rw [Nat.zero_add] at hn
    have hpVal := clearUnusedBits_words A hwidth
    have hmod : (A.BitWidth - 1) % 64 + 1 ≤ 64 := Nat.mod_lt _ (by decide)
    rw [hn, Nat.add_sub_cancel] at hlast hpVal
    generalize (A.BitWidth - 1) % 64 + 1 = k at hlast hpVal hmod
    have hlow : wordsVal (Function.update A.pVal n (A.pVal n &&&
        BitVec.allOnes 64 >>> (64 - k))) n = wordsVal A.pVal n := by
      apply wordsVal_congr
      intro i hi
      exact Function.update_of_ne (Nat.ne_of_lt hi) _ _
    have hlt := wordsVal_lt A.pVal n
    rw [wordsVal_pow] at hlt
    rw [val, val, hwords, hn, hpVal, wordsVal_succ, wordsVal_succ, Function.update_self,
      toNat_and_allOnes_shift _ hmod, wordsVal_pow, hlow, ← hlast, Nat.pow_add, Nat.mod_mul,
      Nat.add_mul_mod_self_right, Nat.mod_eq_of_lt hlt,
      Nat.add_mul_div_right _ _ (Nat.two_pow_pos _), Nat.div_eq_of_lt hlt, Nat.zero_add,
      Nat.mul_comm]

/-! ## Negation -/

theorem val_update_single {A : APInt} (hsingle : A.isSingleWord = true) (v : BitVec 64) :
    val { A with pVal := Function.update A.pVal 0 v } = v.toNat := by
  have hsingle' : isSingleWord { A with pVal := Function.update A.pVal 0 v } = true := hsingle
  rw [val, numWords_single hsingle', wordsVal_one]
  change (Function.update A.pVal 0 v 0).toNat = v.toNat
  rw [Function.update_self]

theorem flipAllBits_width (A : APInt) : (flipAllBits A).BitWidth = A.BitWidth := by
  unfold flipAllBits
  split
  · exact clearUnusedBits_width _
  · exact clearUnusedBits_width _

theorem increment_width (A : APInt) : (increment A).BitWidth = A.BitWidth := by
  unfold increment
  split
  · exact clearUnusedBits_width _
  · exact clearUnusedBits_width _

theorem two_pow_width_dvd (A : APInt) : 2 ^ A.BitWidth ∣ (2 ^ 64) ^ A.numWords := by
  have hspec := numWords_spec A
  rw [wordsVal_pow]
  exact Nat.pow_dvd_pow 2 (by omega)

theorem flipAllBits_val {A : APInt} (hA : A.Valid) :
    (flipAllBits A).val + A.val + 1 = 2 ^ A.BitWidth := by
  have hlt := hA.val_lt
  obtain ⟨k, hk⟩ := two_pow_width_dvd A
  have hraw : ∃ x, (flipAllBits A).val = x % 2 ^ A.BitWidth ∧
      x + A.val + 1 = (2 ^ 64) ^ A.numWords := by
    unfold flipAllBits
    by_cases hsingle : A.isSingleWord = true
    · rw [if_pos hsingle]
      refine ⟨(A.pVal 0 ^^^ BitVec.allOnes 64).toNat, ?_, ?_⟩
      · rw [clearUnusedBits_val, val_update_single hsingle]
      · have hword := (A.pVal 0).isLt
        rw [BitVec.xor_allOnes, BitVec.toNat_not, val, numWords_single hsingle, wordsVal_one]
        omega
    · rw [if_neg hsingle]
      refine ⟨wordsVal (tcComplement A.pVal A.getNumWords) A.getNumWords, ?_, ?_⟩
      · have hmulti : ¬isSingleWord { A with pVal := tcComplement A.pVal A.getNumWords } = true :=
          hsingle
        rw [clearUnusedBits_val, val, numWords_multi hmulti]
        rfl
      · rw [val, numWords_multi hsingle]
        exact tcComplement_value A.pVal A.getNumWords
  obtain ⟨x, hx, hsum⟩ := hraw
  have hpos : 0 < k := by
    refine Nat.pos_of_ne_zero ?_
    rintro rfl
    omega
  obtain ⟨j, rfl⟩ := Nat.exists_eq_succ_of_ne_zero (Nat.ne_of_gt hpos)
  have hform : x = 2 ^ A.BitWidth - 1 - A.val + 2 ^ A.BitWidth * j := by
    rw [Nat.mul_succ] at hk
    omega
  rw [hx, hform, Nat.add_mul_mod_self_left, Nat.mod_eq_of_lt (by omega)]
  omega

theorem increment_val (A : APInt) : (increment A).val = (A.val + 1) % 2 ^ A.BitWidth := by
  have hdvd := two_pow_width_dvd A
  unfold increment
  by_cases hsingle : A.isSingleWord = true
  · rw [if_pos hsingle, clearUnusedBits_val, val_update_single hsingle, BitVec.toNat_add]
    rw [numWords_single hsingle, pow_one] at hdvd
    rw [Nat.mod_mod_of_dvd _ hdvd, val, numWords_single hsingle, wordsVal_one]
    rfl
  · have hpos := Nat.zero_lt_of_lt (one_lt_getNumWords hsingle)
    have hmulti : ¬isSingleWord { A with pVal := (tcIncrement A.pVal A.getNumWords).1 } = true :=
      hsingle
    rw [numWords_multi hsingle] at hdvd
    rw [if_neg hsingle, clearUnusedBits_val, val, numWords_multi hmulti]
    change wordsVal (tcIncrement A.pVal A.getNumWords).1 A.getNumWords % 2 ^ A.BitWidth = _
    rw [tcIncrement_value _ hpos, Nat.mod_mod_of_dvd _ hdvd, val, numWords_multi hsingle]

theorem negate_spec {A : APInt} (hA : A.Valid) :
    (negate A).Valid ∧ (negate A).BitWidth = A.BitWidth ∧
      (negate A).val = (2 ^ A.BitWidth - A.val) % 2 ^ A.BitWidth := by
  have hwidth : (negate A).BitWidth = A.BitWidth :=
    (increment_width _).trans (flipAllBits_width A)
  have hval : (negate A).val = (2 ^ A.BitWidth - A.val) % 2 ^ A.BitWidth := by
    have hflip := flipAllBits_val hA
    rw [negate, increment_val, flipAllBits_width]
    congr 1
    omega
  refine ⟨⟨by rw [hwidth]; exact hA.width_lt, ?_⟩, hwidth, hval⟩
  rw [hval, hwidth]
  exact Nat.mod_lt _ (Nat.two_pow_pos _)

theorem negate_val_inj {A B : APInt} (hA : A.Valid) (hB : B.Valid)
    (hwidth : A.BitWidth = B.BitWidth) :
    (negate A).val = (negate B).val ↔ A.val = B.val := by
  have hltA := hA.val_lt
  have hltB := hB.val_lt
  rw [(negate_spec hA).2.2, (negate_spec hB).2.2, ← hwidth]
  rw [← hwidth] at hltB
  have hcases : ∀ x, x < 2 ^ A.BitWidth →
      (2 ^ A.BitWidth - x) % 2 ^ A.BitWidth = if x = 0 then 0 else 2 ^ A.BitWidth - x := by
    intro x hx
    split
    · rename_i hzero
      rw [hzero, Nat.sub_zero, Nat.mod_self]
    · exact Nat.mod_eq_of_lt (by omega)
  rw [hcases _ hltA, hcases _ hltB]
  split_ifs <;> omega

theorem negate_val_eq_zero {A : APInt} (hA : A.Valid) : (negate A).val = 0 ↔ A.val = 0 := by
  have hlt := hA.val_lt
  rw [(negate_spec hA).2.2]
  constructor
  · intro hzero
    by_contra hne
    rw [Nat.mod_eq_of_lt (by omega)] at hzero
    omega
  · intro hzero
    rw [hzero, Nat.sub_zero, Nat.mod_self]

end SmlnjLlvm.Support.APInt
