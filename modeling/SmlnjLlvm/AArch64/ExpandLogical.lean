import SmlnjLlvm.AArch64.ExpandMoves

/-!
# Expansions by logical immediates

The attempts that use a logical immediate and a move, or two logical
immediates. That no shift reaches the width rests on the immediate not being a
logical one itself.
-/

namespace SmlnjLlvm.AArch64

open Chunks Support BitRuns

/-- An attempt that is defined, and of which a success builds the immediate. -/
def Attempts (attempt : Option (Option (List ImmInsnModel))) (v : BitVec 64) : Prop :=
  ∃ r, attempt = some r ∧ ∀ Insn, r = some Insn → Builds Insn v

theorem Attempts.fail (v : BitVec 64) : Attempts (some none) v :=
  ⟨none, rfl, fun _ h => nomatch h⟩

variable {Imm UImm V v x : BitVec 64} {Insn : List ImmInsnModel} {R i k n : Nat}

theorem Attempts.of_builds (h : Builds Insn v) : Attempts (some (some Insn)) v :=
  ⟨some Insn, rfl, fun _ heq => Option.some.inj heq ▸ h⟩

theorem Encodes.builds_orr {e : BitVec 64} (h : Encodes e Imm 64) :
    Builds [{ Opcode := .ORRXri, Op1 := 0, Op2 := e }] Imm := by
  refine ⟨Nat.le_add_left 1 3, ?_, ?_⟩
  · intro I hI
    rw [List.mem_singleton.mp hI]
    exact h.logicalOk rfl
  · intro Rd
    rw [execAll_cons, h.exec_orr, if_pos rfl, Option.bind_some, execAll_nil]
    exact congrArg some BitVec.zero_or

theorem Builds.snoc {I : ImmInsnModel} {v' : BitVec 64} (h : Builds Insn v)
    (hlen : Insn.length ≤ 3) (hok : I.LogicalOk) (hexec : I.exec v = some v') :
    Builds (Insn ++ [I]) v' := by
  refine ⟨?_, ?_, ?_⟩
  · rw [List.length_append, List.length_singleton]
    omega
  · intro I' hI'
    rcases List.mem_append.mp hI' with hmem | hlast
    · exact h.logical I' hmem
    · rw [List.mem_singleton.mp hlast]
      exact hok
  · intro Rd
    have hrun := h.exec Rd
    unfold execAll at hrun ⊢
    rw [List.foldlM_append, hrun]
    change (I.exec v).bind (fun v => some v) = _
    rw [hexec]
    rfl

theorem movk_eq (c : BitVec 64) (hi : i < 4) : movk c (i * 16) =
    some { Opcode := .MOVKXi, Op1 := c, Op2 := BitVec.ofNat 64 (i * 16) } := by
  unfold movk
  rw [getShifterImm_eq hi]
  rfl

theorem Builds.movk {c : BitVec 64} (h : Builds Insn v) (hlen : Insn.length ≤ 3) (hi : i < 4)
    (hc : c.toNat < 2 ^ 16) :
    Builds (Insn ++ [{ Opcode := .MOVKXi, Op1 := c, Op2 := BitVec.ofNat 64 (i * 16) }])
      (setChunk v i c) :=
  h.snoc hlen (movk_logicalOk 64 _ _) (exec_movk (Or.inr ⟨rfl, rfl⟩) hi hc v)

theorem logicalPair_spec (Imm1 Imm2 v : BitVec 64) {second : Opcode}
    (hsize : second.logicalSize = some 64)
    (hexec : ∀ e, Encodes e Imm2 64 →
      ImmInsnModel.exec { Opcode := second, Op1 := 1, Op2 := e } Imm1 = some v) :
    Attempts (logicalPair Imm1 Imm2 .ORRXri second) v := by
  unfold logicalPair
  rcases processLogicalImmediate_cases Imm1 with hnone | hsome
  · rw [hnone.1]
    rcases processLogicalImmediate_cases Imm2 with hnone' | hsome'
    · rw [hnone'.1]
      exact Attempts.fail v
    · obtain ⟨e, he, _⟩ := hsome'
      rw [he]
      exact Attempts.fail v
  · obtain ⟨e₁, he₁, henc₁⟩ := hsome
    rw [he₁]
    rcases processLogicalImmediate_cases Imm2 with hnone' | hsome'
    · rw [hnone'.1]
      exact Attempts.fail v
    · obtain ⟨e₂, he₂, henc₂⟩ := hsome'
      rw [he₂]
      exact Attempts.of_builds
        (henc₁.builds_orr.snoc (Nat.le_add_left 1 2) (henc₂.logicalOk hsize) (hexec e₂ henc₂))

theorem firstEncoding_spec (L : List (BitVec 64)) :
    ∃ r, firstEncoding L = some r ∧ ∀ e, r = some e → ∃ x ∈ L, Encodes e x 64 := by
  induction L with
  | nil => exact ⟨none, rfl, fun _ h => nomatch h⟩
  | cons x L ih =>
    unfold firstEncoding
    rcases processLogicalImmediate_cases x with hnone | hsome
    · obtain ⟨r, hr, hspec⟩ := ih
      rw [hnone.1]
      refine ⟨r, hr, ?_⟩
      intro e he
      obtain ⟨y, hy, henc⟩ := hspec e he
      exact ⟨y, List.mem_cons_of_mem x hy, henc⟩
    · obtain ⟨e, he, henc⟩ := hsome
      rw [he]
      refine ⟨some e, rfl, ?_⟩
      intro e' he'
      rw [← Option.some.inj he']
      exact ⟨x, List.mem_cons_self, henc⟩

theorem setChunk_eq {y : BitVec 64} (h : ∀ j < 4, j ≠ i → chunk x j = chunk y j) :
    setChunk x i (chunk y i) = y := by
  apply eq_of_chunks
  intro j hj
  rw [chunk_setChunk hj (chunk_lt y i)]
  by_cases heq : j = i
  · rw [if_pos heq, heq]
  · rw [if_neg heq, h j hj heq]

theorem getLsbD_shiftedMask {j : Nat} (hj : j < 4) (hk : k < 16) :
    ((0xFFFF : BitVec 64) <<< (i * 16)).getLsbD (j * 16 + k) = decide (j = i) := by
  rw [BitVec.getLsbD_shiftLeft, Chunks.getLsbD_mask, decide_eq_true (by omega : j * 16 + k < 64),
    Bool.true_and, ← decide_not, ← Bool.decide_and, decide_eq_decide]
  omega

theorem orrMovk_spec (UImm : BitVec 64) {L : List Nat} (hL : ∀ s ∈ L, ∃ i < 4, s = i * 16) :
    Attempts (orrMovk UImm L) UImm := by
  induction L with
  | nil => exact Attempts.fail UImm
  | cons s L ih =>
    obtain ⟨i, hi, hs⟩ := hL s List.mem_cons_self
    unfold orrMovk
    rw [hs, shl_eq (by omega), Nat.mul_div_cancel i (by decide), getChunk_eq UImm hi]
    simp only [Option.bind_eq_bind, Option.bind_some]
    rw [movk_eq _ hi]
    obtain ⟨r, hr, hspec⟩ := firstEncoding_spec
      [UImm &&& ~~~((0xFFFF : BitVec 64) <<< (i * 16)),
        UImm ||| (0xFFFF : BitVec 64) <<< (i * 16),
        UImm &&& ~~~((0xFFFF : BitVec 64) <<< (i * 16)) |||
          (UImm <<< 32 ||| UImm >>> 32) &&& (0xFFFF : BitVec 64) <<< (i * 16)]
    rw [hr, Option.bind_some]
    cases r with
    | none => exact ih fun s' hs' => hL s' (List.mem_cons_of_mem s hs')
    | some e =>
      obtain ⟨x, hx, henc⟩ := hspec e rfl
      have hsame : ∀ j < 4, j ≠ i → chunk x j = chunk UImm j := by
        intro j hj hne
        apply chunk_ext (chunk_lt _ _) (chunk_lt _ _)
        intro k hk
        have hmask := getLsbD_shiftedMask (i := i) hj hk
        rw [decide_eq_false hne] at hmask
        rw [getLsbD_chunk, getLsbD_chunk]
        congr 1
        simp only [List.mem_cons, List.not_mem_nil, or_false] at hx
        rcases hx with hx | hx | hx
        · rw [hx, BitVec.getLsbD_and, BitVec.getLsbD_not, hmask,
            decide_eq_true (by omega : j * 16 + k < 64)]
          simp
        · rw [hx, BitVec.getLsbD_or, hmask, Bool.or_false]
        · rw [hx, BitVec.getLsbD_or, BitVec.getLsbD_and, BitVec.getLsbD_and,
            BitVec.getLsbD_not, hmask, decide_eq_true (by omega : j * 16 + k < 64)]
          simp
      have hbuilds := henc.builds_orr.movk (Nat.le_add_left 1 2) hi (chunk_lt UImm i)
      rw [setChunk_eq hsame] at hbuilds
      exact Attempts.of_builds hbuilds

theorem ringRun_add_right (size R n i c : Nat) :
    ringRun size R n (i + c) = ringRun size (R + c) n i := by
  unfold ringRun
  rw [Nat.add_assoc, Nat.add_comm c R]

theorem IsRun.of_rotr {t : Nat} (h : IsRun (rotr V t)) : IsRun V := by
  obtain ⟨l, R, n, hl, hle, hn, hlt, hrepeats⟩ := h
  refine ⟨l, R + (64 - t % 64), n, hl, hle, hn, hlt, ?_⟩
  intro i
  by_cases hi : i < 64
  · have hmod : (i + (64 - t % 64)) % 64 < 2 ^ 6 := Nat.mod_lt _ (by decide)
    have hdvd : 2 ^ l ∣ 64 := Nat.pow_dvd_pow 2 hle
    rw [← rotl_rotr V t, getLsbD_rotl _ _ hi, hrepeats, decide_eq_true hmod,
      decide_eq_true (by omega : i < 2 ^ 6), ringRun_mod_of_dvd hdvd, ringRun_add_right]
  · rw [decide_eq_false (by omega : ¬i < 2 ^ 6), Bool.false_and,
      BitVec.getLsbD_of_ge V i (Nat.not_lt.mp hi)]

theorem ringRun_not {size : Nat} (hlt : n < size) (i : Nat) :
    (!ringRun size R n i) = ringRun size (R + (size - n)) (size - n) i := by
  have hmod := Nat.mod_lt (i + R) (Nat.lt_of_le_of_lt (Nat.zero_le n) hlt)
  unfold ringRun
  rw [← decide_not, decide_eq_decide, ← Nat.add_assoc, ← Nat.mod_add_mod (i + R)]
  generalize (i + R) % size = y at hmod ⊢
  by_cases hy : y < n
  · rw [Nat.mod_eq_of_lt (by omega)]
    omega
  · have hsum : y + (size - n) = y - n + size := by omega
    rw [hsum, Nat.add_mod_right, Nat.mod_eq_of_lt (by omega)]
    omega

theorem IsRun.not (h : IsRun V) : IsRun (~~~V) := by
  obtain ⟨l, R, n, hl, hle, hn, hlt, hrepeats⟩ := h
  refine ⟨l, R + (2 ^ l - n), 2 ^ l - n, hl, hle, by omega, by omega, ?_⟩
  intro i
  rw [BitVec.getLsbD_not, hrepeats, ← ringRun_not hlt]
  by_cases hi : i < 64
  · rw [decide_eq_true hi, decide_eq_true (by omega : i < 2 ^ 6), Bool.true_and, Bool.true_and,
      Bool.true_and]
  · rw [decide_eq_false hi, decide_eq_false (by omega : ¬i < 2 ^ 6), Bool.false_and,
      Bool.false_and]

/-- The bits of one word are among those of another. -/
def Within (x y : BitVec 64) : Prop := ∀ j < 64, x.getLsbD j = true → y.getLsbD j = true

theorem within_iff (x y : BitVec 64) : x = x &&& y ↔ Within x y := by
  constructor
  · intro heq j _ hx
    rw [heq, BitVec.getLsbD_and, Bool.and_eq_true] at hx
    exact hx.2
  · intro h
    apply BitVec.eq_of_getLsbD_eq
    intro j hj
    rw [BitVec.getLsbD_and]
    cases hx : x.getLsbD j with
    | false => rfl
    | true => rw [h j hj hx]; rfl

theorem lt_of_within {size : Nat} (hsize : 0 < size) (hV : V ≠ BitVec.allOnes 64)
    (hx : ∀ j < 64, x.getLsbD j = ringRun size R n j) (h : Within x V) : n < size := by
  by_contra hge
  apply hV
  apply BitVec.eq_of_getLsbD_eq
  intro j hj
  have hbit : x.getLsbD j = true := by
    rw [hx j hj]
    exact decide_eq_true (Nat.lt_of_lt_of_le (Nat.mod_lt _ hsize) (Nat.not_lt.mp hge))
  rw [h j hj hbit, BitVec.getLsbD_allOnes, decide_eq_true hj]

theorem isRun_of_within {l : Nat} (hl : 0 < l) (hle : l ≤ 6) (hn : 0 < n)
    (hV : V ≠ BitVec.allOnes 64) (hx : ∀ j < 64, x.getLsbD j = ringRun (2 ^ l) R n j)
    (h : Within x V) : IsRun x := by
  refine ⟨l, R, n, hl, hle, hn, lt_of_within (Nat.two_pow_pos l) hV hx h, ?_⟩
  intro i
  by_cases hi : i < 64
  · rw [hx i hi, decide_eq_true (by omega : i < 2 ^ 6), Bool.true_and]
  · rw [decide_eq_false (by omega : ¬i < 2 ^ 6), Bool.false_and,
      BitVec.getLsbD_of_ge x i (Nat.not_lt.mp hi)]

theorem ringRun_half {s : Nat} (hs : 0 < s) (hdvd : 2 * s ∣ 64) (j : Nat) :
    (ringRun (2 * s) R n j || ringRun (2 * s) R n ((j + (64 - s)) % 64)) = ringRun s R n j := by
  obtain ⟨c, hc⟩ := hdvd
  have hcpos : 0 < c := by
    apply Nat.pos_of_ne_zero
    intro hzero
    rw [hzero, Nat.mul_zero] at hc
    cases hc
  have hsplit : j + (64 - s) + R = j + R + s + 2 * s * (c - 1) := by
    rw [Nat.mul_sub, ← hc]
    have hle := Nat.le_mul_of_pos_right (2 * s) hcpos
    omega
  have hmod := Nat.mod_lt (j + R) (by omega : 0 < 2 * s)
  have hlow : (j + R) % s = (j + R) % (2 * s) % s := (Nat.mod_mul_left_mod (j + R) 2 s).symm
  rw [ringRun_mod_of_dvd ⟨c, hc⟩]
  unfold ringRun
  rw [hsplit, Nat.add_mul_mod_self_left, ← Nat.mod_add_mod (j + R), hlow, ← Bool.decide_or,
    decide_eq_decide]
  generalize (j + R) % (2 * s) = y at hmod ⊢
  by_cases hy : y < s
  · rw [Nat.mod_eq_of_lt hy, Nat.mod_eq_of_lt (by omega)]
    omega
  · have hhigh : (y + s) % (2 * s) = y - s := by
      rw [Nat.mod_eq_sub_mod (by omega), Nat.mod_eq_of_lt (by omega)]
      omega
    rw [Nat.mod_eq_sub_mod (Nat.not_lt.mp hy), hhigh, Nat.mod_eq_of_lt (a := y - s) (by omega)]
    omega

theorem replicateTurn_spec (hn : 0 < n) (hV : V ≠ BitVec.allOnes 64) (hi : i ≤ 5)
    (hx : ∀ j < 64, x.getLsbD j = ringRun (2 ^ (i + 1)) R n j) (h : Within x V) :
    Within (replicateTurn V i x) V ∧ IsRun (replicateTurn V i x) := by
  induction i generalizing x with
  | zero => exact ⟨h, isRun_of_within (by decide) (by decide) hn hV hx h⟩
  | succ i ih =>
    unfold replicateTurn
    by_cases hclosure : Within (x ||| rotl x (2 ^ (i + 1))) V
    · rw [if_neg (not_not.mpr ((within_iff _ _).mpr hclosure))]
      apply ih (by omega) _ hclosure
      intro j hj
      have hpow : 2 ^ (i + 1 + 1) = 2 * 2 ^ (i + 1) := Nat.pow_succ'
      have hdvd : 2 * 2 ^ (i + 1) ∣ 64 := by
        rw [← hpow]
        exact Nat.pow_dvd_pow 2 (by omega : i + 1 + 1 ≤ 6)
      have hsmall : 2 ^ (i + 1) < 64 := by
        have hle := Nat.le_of_dvd (by decide) hdvd
        omega
      rw [BitVec.getLsbD_or, getLsbD_rotl _ _ hj, Nat.mod_eq_of_lt hsmall, hx j hj,
        hx _ (Nat.mod_lt _ (by decide)), hpow]
      exact ringRun_half (Nat.two_pow_pos _) hdvd j
    · rw [if_pos (mt (within_iff _ _).mp hclosure)]
      exact ⟨h, isRun_of_within (Nat.succ_pos _) (by omega) hn hV hx h⟩

/-! ## Decomposition -/

theorem allOnes_iff (x : BitVec 64) : x = BitVec.allOnes 64 ↔ ~~~x = 0 := by
  constructor
  · intro h
    rw [h]
    rfl
  · intro h
    rw [← BitVec.not_not (b := x), h]
    rfl

theorem countr_one_spec (hx : x ≠ BitVec.allOnes 64) :
    countr_one x < 64 ∧ x.getLsbD (countr_one x) = false ∧
      ∀ i < countr_one x, x.getLsbD i = true := by
  have hne : ~~~x ≠ 0 := mt (allOnes_iff x).mpr hx
  have hlt : countr_one x < 64 := countr_zero_lt hne
  obtain ⟨hbit, hlow⟩ := countr_zero_spec hne
  refine ⟨hlt, ?_, ?_⟩
  · rw [BitVec.getLsbD_not, Bool.and_eq_true, Bool.not_eq_true'] at hbit
    exact hbit.2
  · intro i hi
    have hzero := hlow i hi
    rw [BitVec.getLsbD_not, decide_eq_true (by omega : i < 64), Bool.true_and,
      Bool.not_eq_false'] at hzero
    exact hzero

theorem getRunOfOnes_spec {P : Nat} (hP : P < 64) (hbit : V.getLsbD P = true)
    (hV : V ≠ BitVec.allOnes 64) :
    ∃ F n, GetRunOfOnesStartingAt V P = some F ∧ 0 < n ∧ Within F V ∧
      ∀ j < 64, F.getLsbD j = ringRun (2 ^ 6) (64 - P) n j := by
  have hne : V >>> P ≠ BitVec.allOnes 64 := by
    intro heq
    by_cases hzero : P = 0
    · rw [hzero] at heq
      exact hV heq
    · have htop := congrArg (fun x : BitVec 64 => x.getLsbD 63) heq
      simp only [BitVec.getLsbD_ushiftRight, BitVec.getLsbD_allOnes] at htop
      rw [BitVec.getLsbD_of_ge V (P + 63) (by omega)] at htop
      cases htop
  obtain ⟨hlt, hend, hones⟩ := countr_one_spec hne
  rw [BitVec.getLsbD_ushiftRight] at hend
  have hin : ∀ i < countr_one (V >>> P), V.getLsbD (P + i) = true := by
    intro i hi
    rw [← BitVec.getLsbD_ushiftRight]
    exact hones i hi
  unfold GetRunOfOnesStartingAt
  rw [shr_eq hP, Option.bind_eq_bind, Option.bind_some]
  rw [if_neg (by omega), shl_eq hlt]
  simp only [Option.map_some, Option.bind_some]
  rw [shl_eq hP]
  generalize countr_one (V >>> P) = n at hlt hend hin
  have hpos : 0 < n := by
    apply Nat.pos_of_ne_zero
    intro hzero
    rw [hzero, Nat.add_zero, hbit] at hend
    cases hend
  have hfits : P + n ≤ 64 := by
    by_contra hgt
    have htop := hin (64 - P) (by omega)
    rw [BitVec.getLsbD_of_ge V _ (by omega)] at htop
    cases htop
  have hrun : ∀ j < 64, (((1 : BitVec 64) <<< n - 1) <<< P).getLsbD j =
      decide (P ≤ j ∧ j < P + n) := by
    intro j hj
    rw [BitVec.getLsbD_shiftLeft, getLsbD_ones hlt, decide_eq_true hj, Bool.true_and,
      ← decide_not, ← Bool.decide_and, decide_eq_decide]
    omega
  refine ⟨_, n, rfl, hpos, ?_, ?_⟩
  · intro j hj hF
    rw [hrun j hj, decide_eq_true_iff] at hF
    have hsum : P + (j - P) = j := by omega
    rw [← hsum]
    exact hin (j - P) (by omega)
  · intro j hj
    have hring := ringRun_from hj hP n
    unfold ringRun at hring ⊢
    rw [Nat.add_mod_mod] at hring
    change _ = decide ((j + (64 - P)) % 64 < n)
    rw [hrun j hj, hring, decide_eq_decide]
    split
    · omega
    · omega

theorem maximalLogicalImmWithin_spec (hx : x ≠ 0) (hsub : Within x V) (hV : V ≠ BitVec.allOnes 64) :
    ∃ M, maximalLogicalImmWithin x V = some M ∧ Within M V ∧ IsRun M := by
  have hP := countr_zero_lt hx
  obtain ⟨F, n, hF, hn, hwithin, hbits⟩ :=
    getRunOfOnes_spec hP (hsub _ hP (countr_zero_spec hx).1) hV
  unfold maximalLogicalImmWithin
  dsimp only
  rw [hF]
  refine ⟨_, rfl, ?_⟩
  -- the rotation by the width does nothing
  have hfirst : MaximallyReplicateSubImmediate V F = replicateTurn V 5 F := by
    have hclosure : F ||| rotl F (2 ^ 6) = F := BitVec.or_self
    unfold MaximallyReplicateSubImmediate
    rw [replicateTurn, hclosure, if_neg (not_not.mpr ((within_iff F V).mpr hwithin))]
  rw [hfirst]
  exact replicateTurn_spec hn hV (by decide) hbits hwithin

theorem or_eq_of_within {y : BitVec 64} (hx : Within x V) (hy : Within y V)
    (hrest : V &&& ~~~x &&& ~~~y = 0) : x ||| y = V := by
  apply BitVec.eq_of_getLsbD_eq
  intro j hj
  have hbits := congrArg (fun x : BitVec 64 => x.getLsbD j) hrest
  have h₁ := hx j hj
  have h₂ := hy j hj
  simp only [BitVec.getLsbD_and, BitVec.getLsbD_not, decide_eq_true hj, Bool.true_and] at hbits
  rw [BitVec.getLsbD_or]
  cases hV : V.getLsbD j with
  | false =>
    rw [hV] at h₁ h₂
    rw [Bool.eq_false_iff.mpr (fun h => Bool.false_ne_true (h₁ h)),
      Bool.eq_false_iff.mpr (fun h => Bool.false_ne_true (h₂ h))]
    rfl
  | true =>
    rw [hV] at hbits
    cases hM : x.getLsbD j with
    | true => rfl
    | false =>
      rw [hM] at hbits
      cases hN : y.getLsbD j with
      | true => rfl
      | false =>
        rw [hN] at hbits
        exact absurd hbits (by simp)

theorem decompose_spec (hnot : ¬IsRun UImm) :
    ∃ r, decomposeIntoOrrOfLogicalImmediates UImm = some r ∧
      ∀ Imm1 Imm2, r = some (Imm1, Imm2) → Imm1 ||| Imm2 = UImm := by
  unfold decomposeIntoOrrOfLogicalImmediates
  by_cases hconst : UImm = 0 ∨ ~~~UImm = 0
  · rw [if_pos hconst]
    exact ⟨none, rfl, fun _ _ h => nomatch h⟩
  rw [if_neg hconst]
  rw [not_or] at hconst
  generalize countr_one UImm = t
  have hback := rotl_rotr UImm t
  have hrun : ¬IsRun (rotr UImm t) := fun h => hnot h.of_rotr
  have hzero : rotr UImm t ≠ 0 := by
    intro hnull
    rw [hnull] at hback
    apply hconst.1
    rw [← hback]
    unfold rotl
    simp
  have hone : rotr UImm t ≠ BitVec.allOnes 64 := by
    intro hall
    rw [hall] at hback
    apply hconst.2
    rw [← allOnes_iff, ← hback]
    apply BitVec.eq_of_getLsbD_eq
    intro i hi
    rw [getLsbD_rotl _ _ hi, BitVec.getLsbD_allOnes, BitVec.getLsbD_allOnes, decide_eq_true hi,
      decide_eq_true (Nat.mod_lt _ (by decide))]
  dsimp only
  generalize rotr UImm t = V at hback hrun hzero hone ⊢
  obtain ⟨M₁, hM₁, hsub₁, hrun₁⟩ := maximalLogicalImmWithin_spec hzero (fun _ _ h => h) hone
  have hremaining : V &&& ~~~M₁ ≠ 0 := by
    intro hnull
    have hback₁ : Within V M₁ := by
      intro j hj hbit
      have hbits := congrArg (fun x : BitVec 64 => x.getLsbD j) hnull
      simp only [BitVec.getLsbD_and, BitVec.getLsbD_not, hbit, decide_eq_true hj,
        Bool.true_and] at hbits
      cases hM : M₁.getLsbD j with
      | true => rfl
      | false =>
        rw [hM] at hbits
        exact absurd (hbits.trans BitVec.getLsbD_zero) (by decide)
    have heq : V = M₁ := by
      rw [(within_iff V M₁).mpr hback₁, BitVec.and_comm]
      exact ((within_iff M₁ V).mpr hsub₁).symm
    exact hrun (heq ▸ hrun₁)
  have hremSub : Within (V &&& ~~~M₁) V := by
    intro j _ hbit
    rw [BitVec.getLsbD_and, Bool.and_eq_true] at hbit
    exact hbit.1
  obtain ⟨M₂, hM₂, hsub₂, _⟩ := maximalLogicalImmWithin_spec hremaining hremSub hone
  simp only [hM₁, hM₂, Option.pure_def, Option.bind_eq_bind, Option.bind_some]
  by_cases hrest : V &&& ~~~M₁ &&& ~~~M₂ = 0
  · rw [if_neg (not_not.mpr hrest)]
    refine ⟨_, rfl, ?_⟩
    intro Imm1 Imm2 heq
    rw [Option.some.injEq, Prod.mk.injEq] at heq
    rw [← heq.1, ← heq.2, ← rotl_or, or_eq_of_within hsub₁ hsub₂ hrest, hback]
  · rw [if_pos hrest]
    exact ⟨none, rfl, fun _ _ h => nomatch h⟩

theorem tryOrrOfLogicalImmediates_spec (hnot : ¬IsRun UImm) :
    Attempts (tryOrrOfLogicalImmediates UImm) UImm := by
  obtain ⟨r, hr, hspec⟩ := decompose_spec hnot
  unfold tryOrrOfLogicalImmediates
  rw [hr]
  rcases r with _ | ⟨Imm1, Imm2⟩
  · exact Attempts.fail UImm
  · apply logicalPair_spec Imm1 Imm2 UImm rfl
    intro e he
    rw [he.exec_orr, if_neg (by decide), hspec Imm1 Imm2 rfl]

theorem tryAndOfLogicalImmediates_spec (hnot : ¬IsRun UImm) :
    Attempts (tryAndOfLogicalImmediates UImm) UImm := by
  have hnot' : ¬IsRun (~~~UImm) := by
    intro h
    have hback := h.not
    rw [BitVec.not_not] at hback
    exact hnot hback
  obtain ⟨r, hr, hspec⟩ := decompose_spec hnot'
  unfold tryAndOfLogicalImmediates
  rw [hr]
  rcases r with _ | ⟨Imm1, Imm2⟩
  · exact Attempts.fail UImm
  · apply logicalPair_spec (~~~Imm1) (~~~Imm2) UImm rfl
    intro e he
    rw [he.exec_and, if_neg (by decide), ← BitVec.not_or, hspec Imm1 Imm2 rfl, BitVec.not_not]

/-! ## Runs of ones -/

theorem halveRepetition_eq (Imm : BitVec 64) {BigSize : Nat} (h : BigSize / 2 < 64) :
    halveRepetition Imm BigSize = halve Imm BigSize := by
  unfold halveRepetition halve
  dsimp only
  rw [shl_eq h, shr_eq h]
  simp only [Option.pure_def, Option.bind_eq_bind, Option.bind_some]

theorem repetition_spec (Imm : BitVec 64) :
    ∃ k, Loop.loop (halveRepetition Imm) 64 64 = some (2 ^ k) ∧ 0 < k ∧ k ≤ 6 := by
  have hstart : Halving Imm 6 (2 ^ 6) :=
    ⟨6, by decide, Nat.le_refl 6, rfl, fun i hi => by rw [Nat.mod_eq_of_lt hi]⟩
  obtain ⟨Size, hrun, k, hSize, hk⟩ := Loop.loop_rule (fun _ => halveRepetition Imm) 0
    (fun Size => Size - 1) (fun Size (hs : Halving Imm 6 Size) => by
      obtain ⟨t, ht, hsat⟩ := halve_spec (Nat.le_refl 6) hs
      refine ⟨t, ?_, hsat⟩
      intro fuel _
      obtain ⟨k, _, hk6, hSize, _⟩ := hs
      have hle : 2 ^ k ≤ 2 ^ 6 := Nat.pow_le_pow_right (by decide) hk6
      rw [← ht]
      exact halveRepetition_eq Imm (by omega)) hstart
  exact ⟨k, hSize ▸ hrun 1 (by decide) 64 (by decide), hk.pos, hk.le⟩

theorem countP_pairs_le {f : Nat → Bool} (h : ∀ i, f (2 * i) = true → f (2 * i + 1) = false)
    (m : Nat) : (List.range (2 * m)).countP f ≤ m := by
  induction m with
  | zero => exact Nat.le_refl 0
  | succ m ih =>
    rw [Nat.mul_succ, List.range_succ, List.range_succ, List.countP_append, List.countP_append,
      List.countP_singleton, List.countP_singleton]
    cases hf : f (2 * m) with
    | false =>
      rw [if_neg Bool.false_ne_true]
      split
      · omega
      · omega
    | true =>
      rw [if_pos rfl, h m hf, if_neg Bool.false_ne_true]
      omega

theorem pairs_of_countP_eq {f : Nat → Bool} (h : ∀ i, f (2 * i) = true → f (2 * i + 1) = false)
    {m : Nat} (heq : (List.range (2 * m)).countP f = m) :
    ∀ i < m, f (2 * i) = true ∨ f (2 * i + 1) = true := by
  induction m with
  | zero => exact fun i hi => absurd hi (Nat.not_lt_zero i)
  | succ m ih =>
    have hle := countP_pairs_le h m
    rw [Nat.mul_succ, List.range_succ, List.range_succ, List.countP_append, List.countP_append,
      List.countP_singleton, List.countP_singleton] at heq
    have hlast : f (2 * m) = true ∨ f (2 * m + 1) = true := by
      by_contra hnone
      rw [not_or] at hnone
      rw [if_neg hnone.1, if_neg hnone.2] at heq
      omega
    have hrest : (List.range (2 * m)).countP f = m := by
      cases hf : f (2 * m) with
      | true =>
        rw [hf, if_pos rfl, h m hf, if_neg Bool.false_ne_true] at heq
        omega
      | false =>
        rw [hf, if_neg Bool.false_ne_true] at heq
        split at heq
        · omega
        · omega
    intro i hi
    rcases Nat.eq_or_lt_of_le (Nat.le_of_lt_succ hi) with hend | hlt
    · rw [hend]
      exact hlast
    · exact ih hrest i hlt

theorem getLsbD_runStarts (Imm : BitVec 64) {j : Nat} (hj : j < 64) :
    (Imm &&& ~~~rotl Imm 1).getLsbD j = (Imm.getLsbD j && !Imm.getLsbD ((j + 63) % 64)) := by
  rw [BitVec.getLsbD_and, BitVec.getLsbD_not, getLsbD_rotl _ _ hj, decide_eq_true hj,
    Bool.true_and]

theorem runStarts_next (Imm : BitVec 64) (j : Nat)
    (h : (Imm &&& ~~~rotl Imm 1).getLsbD j = true) :
    (Imm &&& ~~~rotl Imm 1).getLsbD ((j + 1) % 64) = false := by
  have hj : j < 64 := by
    by_contra hge
    rw [BitVec.getLsbD_of_ge _ _ (Nat.not_lt.mp hge)] at h
    cases h
  rw [getLsbD_runStarts Imm hj, Bool.and_eq_true] at h
  have hback : ((j + 1) % 64 + 63) % 64 = j := by omega
  rw [getLsbD_runStarts Imm (Nat.mod_lt _ (by decide)), hback, h.1]
  exact Bool.and_false _

theorem popcount_and_mask (x : BitVec 64) (hk : k ≤ 6) :
    popcount (x &&& BitVec.allOnes 64 >>> (64 - 2 ^ k)) =
      (List.range (2 ^ k)).countP fun i => x.getLsbD i := by
  have hle : 2 ^ k ≤ 2 ^ 6 := Nat.pow_le_pow_right (by decide) hk
  obtain ⟨d, hd⟩ := Nat.exists_eq_add_of_le hle
  have h64 : 64 = 2 ^ k + d := hd
  unfold popcount
  have hbits : ∀ i, (x &&& BitVec.allOnes 64 >>> (64 - 2 ^ k)).getLsbD i =
      (x.getLsbD i && decide (i < 2 ^ k)) := by
    intro i
    rw [BitVec.getLsbD_and, AArch64.getLsbD_mask hk]
  have hrange : List.range 64 = List.range (2 ^ k) ++ (List.range d).map (2 ^ k + ·) := by
    rw [← List.range_add, ← h64]
  simp only [hbits]
  rw [hrange, List.countP_append]
  have hhigh : ((List.range d).map (2 ^ k + ·)).countP
      (fun i => x.getLsbD i && decide (i < 2 ^ k)) = 0 := by
    rw [List.countP_eq_zero]
    intro i hi
    obtain ⟨j, _, rfl⟩ := List.mem_map.mp hi
    rw [decide_eq_false (by omega : ¬2 ^ k + j < 2 ^ k), Bool.and_false]
    exact Bool.false_ne_true
  rw [hhigh, Nat.add_zero]
  apply List.countP_congr
  intro i hi
  rw [decide_eq_true (List.mem_range.mp hi), Bool.and_true]

theorem isRun_of_pairs (h : ∀ i < 32, (Imm &&& ~~~rotl Imm 1).getLsbD (2 * i) = true ∨
      (Imm &&& ~~~rotl Imm 1).getLsbD (2 * i + 1) = true) : IsRun Imm := by
  have hnext := runStarts_next Imm
  have hstart : ∀ j < 64, (Imm &&& ~~~rotl Imm 1).getLsbD j = true →
      Imm.getLsbD j = true ∧ Imm.getLsbD ((j + 63) % 64) = false := by
    intro j hj hbit
    rw [getLsbD_runStarts Imm hj, Bool.and_eq_true, Bool.not_eq_true'] at hbit
    exact hbit
  generalize Imm &&& ~~~rotl Imm 1 = S at h hnext hstart
  -- a start at an odd bit leaves only the odd bit of the next pair
  have hodd : ∀ i, i + 1 < 32 → S.getLsbD (2 * i + 1) = true →
      S.getLsbD (2 * (i + 1) + 1) = true := by
    intro i hi hbit
    have hzero := hnext (2 * i + 1) hbit
    have hmod : (2 * i + 1 + 1) % 64 = 2 * (i + 1) := by omega
    rw [hmod] at hzero
    rcases h (i + 1) hi with heven | hgoal
    · rw [hzero] at heven
      cases heven
    · exact hgoal
  by_cases hfirst : S.getLsbD 1 = true
  · have hall : ∀ i < 32, S.getLsbD (2 * i + 1) = true := by
      intro i hi
      induction i with
      | zero => exact hfirst
      | succ i ih => exact hodd i hi (ih (by omega))
    refine ⟨1, 1, 1, by decide, by decide, by decide, by decide, ?_⟩
    intro j
    by_cases hj : j < 64
    · obtain ⟨hone, hnull⟩ := hstart (2 * (j / 2) + 1) (by omega) (hall (j / 2) (by omega))
      have hback : (2 * (j / 2) + 1 + 63) % 64 = 2 * (j / 2) := by omega
      rw [hback] at hnull
      rw [decide_eq_true (by omega : j < 2 ^ 6), Bool.true_and]
      unfold ringRun
      by_cases hpar : j % 2 = 1
      · have hidx : 2 * (j / 2) + 1 = j := by omega
        rw [hidx] at hone
        rw [hone, decide_eq_true (by omega : (j + 1) % 2 ^ 1 < 1)]
      · have hidx : 2 * (j / 2) = j := by omega
        rw [hidx] at hnull
        rw [hnull, decide_eq_false (by omega : ¬(j + 1) % 2 ^ 1 < 1)]
    · rw [BitVec.getLsbD_of_ge Imm j (Nat.not_lt.mp hj), decide_eq_false (by omega : ¬j < 2 ^ 6),
        Bool.false_and]
  · have heven₀ : S.getLsbD 0 = true := by
      rcases h 0 (by decide) with heven | hone
      · exact heven
      · exact absurd hone hfirst
    have hnone : ∀ i < 32, S.getLsbD (2 * i + 1) = false := by
      intro i hi
      by_contra hbit
      rw [Bool.not_eq_false] at hbit
      have hup : ∀ n, i + n < 32 → S.getLsbD (2 * (i + n) + 1) = true := by
        intro n hn
        induction n with
        | zero => exact hbit
        | succ n ih => exact hodd (i + n) hn (ih (by omega))
      have hlast := hup (31 - i) (by omega)
      have hidx : i + (31 - i) = 31 := by omega
      rw [hidx] at hlast
      have hzero := hnext 63 hlast
      rw [heven₀] at hzero
      cases hzero
    have hall : ∀ i < 32, S.getLsbD (2 * i) = true := by
      intro i hi
      rcases h i hi with heven | hone
      · exact heven
      · rw [hnone i hi] at hone
        cases hone
    refine ⟨1, 0, 1, by decide, by decide, by decide, by decide, ?_⟩
    intro j
    by_cases hj : j < 64
    · rw [decide_eq_true (by omega : j < 2 ^ 6), Bool.true_and]
      unfold ringRun
      by_cases hpar : j % 2 = 0
      · obtain ⟨hone, _⟩ := hstart (2 * (j / 2)) (by omega) (hall (j / 2) (by omega))
        have hidx : 2 * (j / 2) = j := by omega
        rw [hidx] at hone
        rw [hone, decide_eq_true (by omega : (j + 0) % 2 ^ 1 < 1)]
      · obtain ⟨_, hnull⟩ := hstart (2 * ((j / 2 + 1) % 32)) (by omega)
          (hall ((j / 2 + 1) % 32) (by omega))
        have hidx : (2 * ((j / 2 + 1) % 32) + 63) % 64 = j := by omega
        rw [hidx] at hnull
        rw [hnull, decide_eq_false (by omega : ¬(j + 0) % 2 ^ 1 < 1)]
    · rw [BitVec.getLsbD_of_ge Imm j (Nat.not_lt.mp hj), decide_eq_false (by omega : ¬j < 2 ^ 6),
        Bool.false_and]

theorem runs_le (hnot : ¬IsRun Imm) (hpos : 0 < k) (hk : k ≤ 6) :
    popcount ((Imm &&& ~~~rotl Imm 1) &&& BitVec.allOnes 64 >>> (64 - 2 ^ k)) ≤ 2 ^ (k - 1) ∧
      popcount ((Imm &&& ~~~rotl Imm 1) &&& BitVec.allOnes 64 >>> (64 - 2 ^ k)) < 32 := by
  have hnext : ∀ i, (Imm &&& ~~~rotl Imm 1).getLsbD (2 * i) = true →
      (Imm &&& ~~~rotl Imm 1).getLsbD (2 * i + 1) = false := by
    intro i hbit
    have hzero := runStarts_next Imm (2 * i) hbit
    by_cases hi : 2 * i + 1 < 64
    · rw [Nat.mod_eq_of_lt hi] at hzero
      exact hzero
    · exact BitVec.getLsbD_of_ge _ _ (Nat.not_lt.mp hi)
  have hpow : 2 ^ k = 2 * 2 ^ (k - 1) := Words.two_pow_eq hpos
  have hhalf : 2 ^ (k - 1) ≤ 2 ^ 5 := Nat.pow_le_pow_right (by decide) (by omega)
  rw [popcount_and_mask _ hk, hpow]
  have hle := countP_pairs_le hnext (2 ^ (k - 1))
  refine ⟨hle, ?_⟩
  by_contra hge
  have hm : 2 ^ (k - 1) = 32 := Nat.le_antisymm hhalf (Nat.le_trans (Nat.not_lt.mp hge) hle)
  have heq := Nat.le_antisymm hle (Nat.le_trans hhalf (Nat.not_lt.mp hge))
  have hpairs := pairs_of_countP_eq hnext heq
  rw [hm] at hpairs
  exact hnot (isRun_of_pairs hpairs)

theorem tables_spec : ∀ k < 7, ∀ runs < 32, runs ≤ 2 ^ (k - 1) →
    ∀ shift ∈ BigToSmallSizeTable[runs]?.toList, ∀ s ∈ shift.toList,
      RepeatedOnesTable[countr_zero (BitVec.ofNat 32 (2 ^ k >>> s))]?.isSome = true := by
  decide +kernel

theorem eorAttempts_spec (hone : Imm ≠ BitVec.allOnes 64) (RunStarts SmallOnes : BitVec 64)
    (n Rotation : Nat) : Attempts (eorAttempts Imm RunStarts SmallOnes n Rotation) Imm := by
  induction n generalizing Rotation with
  | zero => exact Attempts.fail Imm
  | succ n ih =>
    have hrotated : rotr Imm Rotation ≠ BitVec.allOnes 64 := by
      intro hall
      apply hone
      rw [← rotl_rotr Imm Rotation, hall]
      apply BitVec.eq_of_getLsbD_eq
      intro i hi
      rw [getLsbD_rotl _ _ hi, BitVec.getLsbD_allOnes, BitVec.getLsbD_allOnes,
        decide_eq_true hi, decide_eq_true (Nat.mod_lt _ (by decide))]
    unfold eorAttempts
    dsimp only
    rw [shl_eq (countr_one_spec hrotated).1]
    simp only [Option.bind_eq_bind, Option.bind_some]
    generalize rotl (SmallOnes <<< countr_one (rotr Imm Rotation) - SmallOnes) Rotation = SmallImm
    rcases processLogicalImmediate_cases (Imm ^^^ SmallImm) with hnone | hsome
    · rw [hnone.1]
      exact ih _
    · obtain ⟨e, he, henc⟩ := hsome
      rw [he]
      rcases processLogicalImmediate_cases SmallImm with hnone' | hsome'
      · simp only [Option.bind_some, Option.isSome_some, if_pos, hnone'.1]
        exact ih _
      · obtain ⟨e', he', henc'⟩ := hsome'
        simp only [Option.bind_some, Option.isSome_some, if_pos, he']
        apply Attempts.of_builds
        apply henc'.builds_orr.snoc (Nat.le_add_left 1 2) (henc.logicalOk rfl)
        rw [henc.exec_eor, if_neg (by decide), BitVec.xor_comm Imm, ← BitVec.xor_assoc,
          BitVec.xor_self, BitVec.zero_xor]

theorem tryEorOfLogicalImmediates_spec (hone : Imm ≠ BitVec.allOnes 64) (hnot : ¬IsRun Imm) :
    Attempts (tryEorOfLogicalImmediates Imm) Imm := by
  obtain ⟨k, hloop, hpos, hk⟩ := repetition_spec Imm
  have hpow := Nat.two_pow_pos k
  obtain ⟨hruns, hlt⟩ := runs_le hnot hpos hk
  unfold tryEorOfLogicalImmediates
  rw [hloop]
  simp only [Option.bind_eq_bind, Option.bind_some]
  rw [shr_eq (by omega)]
  simp only [Option.bind_some]
  have hones := tables_spec k (by omega) _ hlt hruns
  rw [List.getElem?_eq_getElem hlt] at hones ⊢
  generalize BigToSmallSizeTable[popcount (Imm &&& ~~~rotl Imm 1 &&& _)] = shift at hones ⊢
  replace hones := hones shift (Option.mem_toList.mpr rfl)
  cases shift with
  | none => exact Attempts.fail Imm
  | some s =>
    obtain ⟨SmallOnes, hsmall⟩ := Option.isSome_iff_exists.mp (hones s List.mem_cons_self)
    simp only [Option.bind_some, hsmall]
    exact eorAttempts_spec hone _ _ _ _

end SmlnjLlvm.AArch64
