import SmlnjLlvm.Library.Cofactors
import SmlnjLlvm.Support.APIntAliasing
import SmlnjLlvm.Support.APIntOps

/-!
# The multiplicative inverse

Euclid's algorithm with one coefficient, in the width of the modulus. The
remainder of a turn is stored in the object of the dividend, so that the quotient
by one may be lost; it is used only for a coefficient that is not read again.
-/

namespace SmlnjLlvm.Support.APInt

open Digits Loop

def ofBitVec {w : Nat} (v : BitVec w) : APInt where
  BitWidth := w
  pVal := fun i => BitVec.ofNat 64 (v.toNat / (2 ^ 64) ^ i)

def toBitVec (w : Nat) (A : APInt) : BitVec w := BitVec.ofNat w A.val

theorem wordsVal_ofNat (n k : Nat) :
    wordsVal (fun i => BitVec.ofNat 64 (n / (2 ^ 64) ^ i)) k = n % (2 ^ 64) ^ k := by
  induction k with
  | zero => exact (Nat.mod_one n).symm
  | succ k ih =>
    rw [wordsVal_succ, ih, BitVec.toNat_ofNat, Nat.mod_pow_succ (b := 2 ^ 64) (k := k),
      Nat.mul_comm]

theorem ofBitVec_val {w : Nat} (v : BitVec w) : (ofBitVec v).val = v.toNat := by
  obtain ⟨hpos, hbits⟩ := numWords_spec (ofBitVec v)
  change wordsVal (fun i => BitVec.ofNat 64 (v.toNat / (2 ^ 64) ^ i)) (ofBitVec v).numWords = _
  rw [wordsVal_ofNat, Nat.mod_eq_of_lt]
  refine Nat.lt_of_lt_of_le v.isLt ?_
  rw [wordsVal_pow]
  apply Nat.pow_le_pow_right (by decide)
  change 0 < w → _ = w at hbits
  omega

theorem ofBitVec_valid {w : Nat} (hw : w < 2 ^ 32) (v : BitVec w) : (ofBitVec v).Valid :=
  ⟨hw, by rw [ofBitVec_val]; exact v.isLt⟩

theorem Represents.toBitVec {A : APInt} {w x : Nat} (h : A.Represents w x) :
    (toBitVec w A).toNat = x := by
  have hlt := h.valid.val_lt
  rw [h.width, h.val_eq] at hlt
  rw [APInt.toBitVec, BitVec.toNat_ofNat, h.val_eq, Nat.mod_eq_of_lt hlt]

section Frame

variable {Loc : Type} [DecidableEq Loc] {σ σ' : Loc → APInt} {l r q m x : Loc}
  {getMemory getMemory' : Words64}

theorem update_update_of_ne (hq : x ≠ q) (hm : x ≠ m) (σ : Loc → APInt) (Q R : APInt) :
    Function.update (Function.update σ q Q) m R x = σ x := by
  rw [Function.update_of_ne hm, Function.update_of_ne hq]

theorem udivremTail_frame {BitWidth lhsWords rhsWords : Nat} (hq : x ≠ q) (hm : x ≠ m)
    (hrun : udivremTail getMemory getMemory' σ l r q m BitWidth lhsWords rhsWords = some σ') :
    σ' x = σ x := by
  unfold udivremTail at hrun
  split at hrun
  · rw [Option.some.injEq] at hrun
    rw [← hrun, update_update_of_ne hm hq]
  split at hrun
  · rw [Option.some.injEq] at hrun
    rw [← hrun, update_update_of_ne hq hm]
  dsimp only at hrun
  split at hrun
  · split at hrun
    · cases hrun
    · rw [Option.some.injEq] at hrun
      rw [← hrun, update_update_of_ne hq hm, update_update_of_ne hq hm]
  · obtain ⟨results, -, hrest⟩ := Option.bind_eq_some_iff.mp hrun
    rw [Option.some.injEq] at hrest
    rw [← hrest, update_update_of_ne hq hm, update_update_of_ne hq hm]

/-- The remainder in the object of the dividend: it is right, and so is the quotient by
anything but one. -/
theorem udivremAt_shared (h : Operands (σ l) (σ r)) (hlr : l ≠ r) (hql : q ≠ l) (hqr : q ≠ r)
    (getMemory getMemory' : Words64) :
    ∃ σ', udivremAt getMemory getMemory' σ l r q l = some σ' ∧
      (σ' l).Represents (σ l).BitWidth ((σ l).val % (σ r).val) ∧
      ((σ r).val ≠ 1 → (σ' q).Represents (σ l).BitWidth ((σ l).val / (σ r).val)) := by
  by_cases hclobber : Clobbers (σ l).BitWidth (σ l).val (σ r).val l r q l
  · obtain ⟨hwide, hone, hne, -⟩ := hclobber
    have hmulti : ¬(σ l).isSingleWord = true := by
      rw [isSingleWord_iff]
      omega
    have hnull : (ofWord (σ l).BitWidth 0).Represents (σ l).BitWidth 0 :=
      Represents.ofWord h.left.width_lt (Nat.two_pow_pos _)
    have hl : afterOne σ l q l l = ofWord (σ l).BitWidth 0 := Function.update_self _ _ _
    have hr : afterOne σ l q l r = σ r := update_update_of_ne hqr.symm hlr.symm _ _ _
    have hless : (afterOne σ l q l l).val < (afterOne σ l q l r).val := by
      rw [hl, hr, hnull.val_eq]
      exact h.pos
    rw [udivremAt_multi h hmulti hne, if_pos hone,
      udivremTail_less (by rw [hl, hr, hnull.width, h.width]) hless]
    refine ⟨_, rfl, ?_, fun hval => absurd hone hval⟩
    rw [Function.update_of_ne hql.symm, Function.update_self, hl, hone, Nat.mod_one]
    exact hnull
  · obtain ⟨σ', hrun, hdiv⟩ := udivremAt_spec h hql hclobber getMemory getMemory'
    exact ⟨σ', hrun, hdiv.remainder, fun _ => hdiv.quotient⟩

theorem udivremAt_frame (h : Operands (σ l) (σ r)) (hq : x ≠ q) (hm : x ≠ m)
    (hrun : udivremAt getMemory getMemory' σ l r q m = some σ') : σ' x = σ x := by
  by_cases hsingle : (σ l).isSingleWord = true
  · unfold udivremAt guard at hrun
    rw [if_pos h.width] at hrun
    simp only [Option.pure_def, Option.bind_eq_bind, Option.bind_some] at hrun
    rw [if_pos hsingle, if_pos (h.single hsingle).2.2, Option.bind_some, Option.some.injEq] at hrun
    rw [← hrun, update_update_of_ne hq hm]
  by_cases hzero : (σ l).val = 0
  · have hwords := (activeWords_spec h.left hsingle).2.2.mpr hzero
    unfold udivremAt guard at hrun
    rw [if_pos h.width] at hrun
    simp only [Option.pure_def, Option.bind_eq_bind, Option.bind_some] at hrun
    rw [if_neg hsingle, if_pos (h.rhsWords_ne_zero hsingle), Option.bind_some, if_pos hwords,
      Option.some.injEq] at hrun
    rw [← hrun, update_update_of_ne hq hm]
  · rw [udivremAt_multi h hsingle hzero] at hrun
    rw [udivremTail_frame hq hm hrun]
    split
    · exact update_update_of_ne hq hm _ _ _
    · rfl

end Frame

/-! ## The loop -/

namespace multiplicativeInverse

/-- The variables of the loop: two remainders, two coefficients, and the quotient. -/
structure State (w : Nat) where
  i : Bool
  r : Bool → BitVec w
  t : Bool → BitVec w
  q : BitVec w

/-- The objects of the division. -/
inductive Register where
  | r (i : Bool)
  | q
  deriving DecidableEq

variable {w : Nat}

def store (s : State w) : Register → APInt
  | .r i => ofBitVec (s.r i)
  | .q => ofBitVec s.q

def turn (getMemory getMemory' : Words64) (modulo : BitVec w) (s : State w) :
    Option (Turn (State w) (BitVec w)) :=
  if s.r (!s.i) ≠ 0 then do
    let σ ← udivremAt getMemory getMemory' (store s) (.r s.i) (.r !s.i) .q (.r s.i)
    let q := toBitVec w (σ .q)
    let t := Function.update s.t s.i (s.t s.i - s.t (!s.i) * q)
    some (.next ⟨!s.i, fun j => toBitVec w (σ (.r j)), t, q⟩)
  else if s.r s.i ≠ 1 then some (.exit 0)
  else if (s.t s.i).msb then some (.exit (s.t s.i + modulo))
  else some (.exit (s.t s.i))

end multiplicativeInverse

open multiplicativeInverse

variable {w : Nat}

def multiplicativeInverse (getMemory getMemory' : Words64) (turns : Nat) (A modulo : BitVec w) :
    Option (BitVec w) :=
  if A.ult modulo then
    loop (turn getMemory getMemory' modulo) turns
      ⟨false, fun j => if j then A else modulo, fun j => if j then 1 else 0, 0⟩
  else none

namespace multiplicativeInverse

def Inv (m a : Nat) (s : State w) : Prop :=
  ∃ T U : Int, Cofactors m a (s.r s.i).toNat (s.r (!s.i)).toNat T U ∧
    s.t s.i = BitVec.ofInt w T ∧ (s.r (!s.i) ≠ 0 → s.t (!s.i) = BitVec.ofInt w U)

theorem operands_store (hw : w < 2 ^ 32) {s : State w} (h : s.r (!s.i) ≠ 0) :
    Operands (store s (.r s.i)) (store s (.r !s.i)) := by
  refine ⟨ofBitVec_valid hw _, ofBitVec_valid hw _, rfl, ?_⟩
  change 0 < (ofBitVec (s.r !s.i)).val
  rw [ofBitVec_val]
  exact Nat.pos_of_ne_zero fun hzero => h (BitVec.eq_of_toNat_eq hzero)

theorem turn_next (hw : w < 2 ^ 32) (getMemory getMemory' : Words64) (modulo : BitVec w)
    {m a : Nat} {s : State w} (h : Inv m a s) (hne : s.r (!s.i) ≠ 0) :
    ∃ s', turn getMemory getMemory' modulo s = some (.next s') ∧ Inv m a s' ∧
      (s'.r (!s'.i)).toNat < (s.r (!s.i)).toNat := by
  obtain ⟨T, U, hcof, hT, hU⟩ := h
  have hops := operands_store hw hne
  have hrs : (Register.r s.i) ≠ .r !s.i := by
    intro heq
    exact Bool.not_ne_self s.i (Register.r.inj heq).symm
  obtain ⟨σ, hrun, hrem, hquot⟩ := udivremAt_shared (q := .q) hops hrs (by simp) (by simp)
    getMemory getMemory'
  have hframe := udivremAt_frame hops (by simp) hrs.symm hrun
  have hR : (store s (.r s.i)).val = (s.r s.i).toNat := ofBitVec_val _
  have hS : (store s (.r !s.i)).val = (s.r !s.i).toNat := ofBitVec_val _
  have hwidth : (store s (.r s.i)).BitWidth = w := rfl
  rw [hR, hS, hwidth] at hrem hquot
  have hpos : 0 < (s.r !s.i).toNat := by
    rw [← hS]
    exact hops.pos
  have hrem' : (toBitVec w (σ (.r s.i))).toNat = (s.r s.i).toNat % (s.r !s.i).toNat :=
    hrem.toBitVec
  have hdiv' : (toBitVec w (σ (.r !s.i))).toNat = (s.r !s.i).toNat := by
    rw [hframe]
    exact (ofBitVec_valid hw (s.r !s.i)).represents.toBitVec.trans hS
  refine ⟨_, by rw [turn, if_pos hne, hrun]; rfl, ?_, ?_⟩
  · refine ⟨U, T - U * ((s.r s.i).toNat / (s.r !s.i).toNat : Nat), ?_, ?_, ?_⟩
    · dsimp only
      rw [Bool.not_not, hrem', hdiv']
      exact hcof.step hpos
    · dsimp only
      rw [Function.update_of_ne (Bool.not_ne_self s.i)]
      exact hU hne
    · dsimp only
      rw [Bool.not_not, Function.update_self]
      intro hrest
      have hone : (s.r !s.i).toNat ≠ 1 := by
        intro hone
        rw [hone, Nat.mod_one] at hrem'
        exact hrest (BitVec.eq_of_toNat_eq hrem')
      have hq : toBitVec w (σ .q) =
          BitVec.ofInt w ((s.r s.i).toNat / (s.r !s.i).toNat : Nat) := by
        rw [BitVec.ofInt_natCast]
        apply BitVec.eq_of_toNat_eq
        rw [(hquot hone).toBitVec, BitVec.toNat_ofNat, Nat.mod_eq_of_lt]
        exact Nat.div_lt_of_lt (s.r s.i).isLt
      rw [hq, hT, hU hne, Int.sub_eq_add_neg, BitVec.ofInt_add, BitVec.ofInt_neg, BitVec.ofInt_mul,
        BitVec.sub_eq_add_neg]
  · dsimp only
    rw [Bool.not_not, hrem']
    exact Nat.mod_lt _ hpos

theorem toNat_inverse {modulo : BitVec w} {a : Nat} {T U : Int}
    (h : Cofactors modulo.toNat a 1 0 T U) :
    let t := BitVec.ofInt w T
    let X := if t.msb then t + modulo else t
    X.toNat < modulo.toNat ∧ a * X.toNat ≡ 1 [MOD modulo.toNat] := by
  intro t X
  obtain ⟨x, hx, hlt, hmod⟩ := h.inverse
  have hm := modulo.isLt
  have hhalf := h.half
  have hw : 0 < w := by
    refine Nat.pos_of_ne_zero ?_
    rintro rfl
    omega
  have hpow := Words.two_pow_eq hw
  have hcast := Words.cast_two_pow (w - 1)
  have ht : t.toInt = T := by
    apply BitVec.toInt_ofInt_eq_self hw
    · omega
    · omega
  have hX : X = BitVec.ofNat w x := by
    change (if t.msb then t + modulo else t) = _
    rw [← BitVec.ofInt_natCast, hx, BitVec.msb_eq_toInt, ht]
    by_cases hneg : T < 0
    · rw [decide_eq_true hneg, if_pos rfl, if_pos hneg, BitVec.ofInt_add, BitVec.ofInt_natCast,
        BitVec.ofNat_toNat, BitVec.setWidth_eq]
    · rw [decide_eq_false hneg, if_neg Bool.false_ne_true, if_neg hneg]
  have hval : X.toNat = x := by
    rw [hX, BitVec.toNat_ofNat, Nat.mod_eq_of_lt (Nat.lt_trans hlt hm)]
  rw [hval]
  exact ⟨hlt, hmod⟩

def IsInverse (modulo : BitVec w) (a : Nat) (X : BitVec w) : Prop :=
  (Nat.Coprime a modulo.toNat → X.toNat < modulo.toNat ∧ a * X.toNat ≡ 1 [MOD modulo.toNat]) ∧
    (¬Nat.Coprime a modulo.toNat → X = 0)

theorem turn_step (hw : w < 2 ^ 32) (getMemory getMemory' : Words64) {modulo : BitVec w} {a : Nat}
    (hlt : a < modulo.toNat) {s : State w} (h : Inv modulo.toNat a s) :
    ∃ t, turn getMemory getMemory' modulo s = some t ∧
      t.Sat (fun s' => Inv modulo.toNat a s' ∧ (s'.r (!s'.i)).toNat < (s.r (!s.i)).toNat)
        (IsInverse modulo a) := by
  by_cases hne : s.r (!s.i) ≠ 0
  · obtain ⟨s', hrun, hinv, hdec⟩ := turn_next hw getMemory getMemory' modulo h hne
    exact ⟨.next s', hrun, hinv, hdec⟩
  obtain ⟨T, U, hcof, hT, -⟩ := h
  have hzero : s.r (!s.i) = 0 := not_not.mp hne
  have hnull : (0 : BitVec w).toNat = 0 := rfl
  have hwidth : 0 < w := by
    refine Nat.pos_of_ne_zero ?_
    rintro rfl
    omega
  rw [hzero, hnull] at hcof
  have hgcd := hcof.gcd_eq
  have hone : s.r s.i = 1 ↔ Nat.Coprime a modulo.toNat := by
    unfold Nat.Coprime
    rw [← hgcd, ← Words.toNat_one hwidth]
    exact BitVec.toNat_inj.symm
  unfold turn
  rw [if_neg hne]
  by_cases hcop : Nat.Coprime a modulo.toNat
  · have hr := hone.mpr hcop
    have hunit : (s.r s.i).toNat = 1 := by rw [hr, Words.toNat_one hwidth]
    rw [hunit] at hcof
    have hval := toNat_inverse hcof
    rw [← hT] at hval
    refine ⟨.exit (if (s.t s.i).msb then s.t s.i + modulo else s.t s.i), ?_, fun _ => hval,
      fun hno => absurd hcop hno⟩
    rw [if_neg (not_not_intro hr)]
    split
    · rfl
    · rfl
  · exact ⟨.exit 0, by rw [if_pos (mt hone.mp hcop)], fun hyes => absurd hyes hcop, fun _ => rfl⟩

end multiplicativeInverse

/-- The loop ends, and the result is the inverse, or zero when there is none. -/
theorem multiplicativeInverse_spec (hw : w < 2 ^ 32) (getMemory getMemory' : Words64)
    {A modulo : BitVec w} (hlt : A.toNat < modulo.toNat) :
    ∃ X : BitVec w, (∀ turns, A.toNat < turns →
        multiplicativeInverse getMemory getMemory' turns A modulo = some X) ∧
      (Nat.Coprime A.toNat modulo.toNat →
        X.toNat < modulo.toNat ∧ A.toNat * X.toNat ≡ 1 [MOD modulo.toNat]) ∧
      (¬Nat.Coprime A.toNat modulo.toNat → X = 0) := by
  have hinit : Inv modulo.toNat A.toNat
      (⟨false, fun j => if j then A else modulo, fun j => if j then 1 else 0, 0⟩ : State w) := by
    refine ⟨0, 1, Cofactors.start hlt, ?_, fun _ => ?_⟩
    · exact BitVec.ofInt_natCast w 0
    · exact BitVec.ofInt_natCast w 1
  obtain ⟨X, hrun, hX⟩ := loop_total (turn getMemory getMemory' modulo)
    (fun s => (s.r (!s.i)).toNat) (fun _ hs => turn_step hw getMemory getMemory' hlt hs) hinit
  refine ⟨X, fun turns hturns => ?_, hX⟩
  rw [multiplicativeInverse, BitVec.ult, decide_eq_true hlt, if_pos rfl]
  exact hrun turns hturns

theorem multiplicativeInverse_byte :
    8 < 2 ^ 32 ∧ (3 : BitVec 8).toNat < (10 : BitVec 8).toNat ∧
    ∃ X : BitVec 8, (∀ turns, (3 : BitVec 8).toNat < turns →
        multiplicativeInverse (fun _ => 0) (fun _ => 0) turns (3 : BitVec 8) 10 = some X) ∧
      (Nat.Coprime (3 : BitVec 8).toNat (10 : BitVec 8).toNat → X.toNat < (10 : BitVec 8).toNat ∧
        (3 : BitVec 8).toNat * X.toNat ≡ 1 [MOD (10 : BitVec 8).toNat]) ∧
      (¬Nat.Coprime (3 : BitVec 8).toNat (10 : BitVec 8).toNat → X = 0) :=
  ⟨by decide, by decide, multiplicativeInverse_spec (by decide) (fun _ => 0) (fun _ => 0) (by decide)⟩

end SmlnjLlvm.Support.APInt
