import SmlnjLlvm.AArch64.ExpandImm

/-!
# Moves of chunks

The first move sets all chunks but one to zeros or to ones. Each later one sets
a chunk that differs, up to the last of them.
-/

namespace SmlnjLlvm.AArch64

open Chunks Support

variable {D Imm R T X c x : BitVec 64} {i n s : Nat} {isNeg : Bool}

theorem shr_eq (hn : n < 64) : shr x n = some (x >>> n) := by
  unfold shr guard
  rw [if_pos hn]
  rfl

theorem shl_eq (hn : n < 64) : shl x n = some (x <<< n) := by
  unfold shl guard
  rw [if_pos hn]
  rfl

theorem getChunk_eq (x : BitVec 64) (hi : i < 4) : getChunk x i = some (chunk x i) := by
  unfold getChunk guard
  rw [if_pos hi]
  rfl

/-- The chunks of a register of `BitSize` bits. -/
def sized (BitSize : Nat) (x : BitVec 64) : BitVec 64 := if BitSize = 32 then narrow x else x

theorem getLsbD_narrow (x : BitVec 64) (i : Nat) :
    (narrow x).getLsbD i = (decide (i < 32) && x.getLsbD i) := by
  unfold narrow
  rw [BitVec.getLsbD_setWidth, BitVec.getLsbD_setWidth]
  by_cases hi : i < 32
  · rw [decide_eq_true hi, decide_eq_true (by omega : i < 64), Bool.true_and, Bool.true_and]
  · rw [decide_eq_false hi, Bool.false_and, Bool.and_false]

variable {BitSize N : Nat}

/-- A register size, with its number of chunks. -/
def Register (BitSize N : Nat) : Prop := BitSize = 32 ∧ N = 2 ∨ BitSize = 64 ∧ N = 4

theorem chunk_sized (h : Register BitSize N) (x : BitVec 64) (hi : i < 4) :
    chunk (sized BitSize x) i = if i < N then chunk x i else 0 := by
  unfold sized
  rcases h with hsmall | hlarge
  · rw [if_pos hsmall.1, hsmall.2]
    apply chunk_ext (chunk_lt _ _)
    · split
      · exact chunk_lt _ _
      · decide
    · intro j hj
      rw [getLsbD_chunk, getLsbD_narrow, decide_eq_true hj, Bool.true_and]
      by_cases hlt : i < 2
      · rw [if_pos hlt, getLsbD_chunk, decide_eq_true hj, Bool.true_and,
          decide_eq_true (by omega : i * 16 + j < 32), Bool.true_and]
      · rw [if_neg hlt, decide_eq_false (by omega : ¬i * 16 + j < 32), Bool.false_and]
        exact (BitVec.getLsbD_zero).symm
  · rw [if_neg (by omega : ¬BitSize = 32), if_pos (by omega : i < N)]

theorem eq_sized_of_chunks (h : Register BitSize N) {y : BitVec 64}
    (hxy : ∀ i < 4, chunk x i = if i < N then chunk y i else 0) : x = sized BitSize y := by
  apply eq_of_chunks
  intro i hi
  rw [hxy i hi, chunk_sized h y hi]

/-! ## The moves -/

def movkOpc (BitSize : Nat) : Opcode := if BitSize = 32 then .MOVKWi else .MOVKXi

def firstOpc (BitSize : Nat) (isNeg : Bool) : Opcode :=
  if BitSize = 32 then if isNeg then .MOVNWi else .MOVZWi else if isNeg then .MOVNXi else .MOVZXi

theorem exec_movk (h : Register BitSize N) (hi : i < N) (hc : c.toNat < 2 ^ 16) (Rd : BitVec 64) :
    ImmInsnModel.exec { Opcode := movkOpc BitSize, Op1 := c, Op2 := BitVec.ofNat 64 (i * 16) } Rd =
      some (sized BitSize (setChunk Rd i c)) := by
  unfold movkOpc sized
  rcases h with hsmall | hlarge
  · rw [if_pos hsmall.1, if_pos hsmall.1]
    change (movePosition 32 c _).bind _ = _
    rw [movePosition_eq hc (by decide) (by omega)]
    rfl
  · rw [if_neg (by omega : ¬BitSize = 32), if_neg (by omega : ¬BitSize = 32)]
    change (movePosition 64 c _).bind _ = _
    rw [movePosition_eq hc (by decide) (by omega)]
    rfl

theorem exec_first (h : Register BitSize N) (isNeg : Bool) (hi : i < N) (hc : c.toNat < 2 ^ 16)
    (Rd : BitVec 64) :
    ImmInsnModel.exec
        { Opcode := firstOpc BitSize isNeg, Op1 := c, Op2 := BitVec.ofNat 64 (i * 16) } Rd =
      some (sized BitSize (if isNeg then ~~~setChunk 0 i c else setChunk 0 i c)) := by
  unfold firstOpc sized
  rcases h with hsmall | hlarge
  · rw [if_pos hsmall.1, if_pos hsmall.1]
    cases isNeg with
    | false =>
      change (movePosition 32 c _).bind _ = _
      rw [movePosition_eq hc (by decide) (by omega)]
      rfl
    | true =>
      change (movePosition 32 c _).bind _ = _
      rw [movePosition_eq hc (by decide) (by omega)]
      rfl
  · rw [if_neg (by omega : ¬BitSize = 32), if_neg (by omega : ¬BitSize = 32)]
    cases isNeg with
    | false =>
      change (movePosition 64 c _).bind _ = _
      rw [movePosition_eq hc (by decide) (by omega)]
      rfl
    | true =>
      change (movePosition 64 c _).bind _ = _
      rw [movePosition_eq hc (by decide) (by omega)]
      rfl

theorem movk_logicalOk (BitSize : Nat) (Op1 Op2 : BitVec 64) :
    ImmInsnModel.LogicalOk { Opcode := movkOpc BitSize, Op1 := Op1, Op2 := Op2 } := by
  intro Size hSize
  unfold movkOpc at hSize
  split at hSize
  · cases hSize
  · cases hSize

theorem first_logicalOk (BitSize : Nat) (isNeg : Bool) (Op1 Op2 : BitVec 64) :
    ImmInsnModel.LogicalOk { Opcode := firstOpc BitSize isNeg, Op1 := Op1, Op2 := Op2 } := by
  intro Size hSize
  unfold firstOpc at hSize
  cases isNeg with
  | false =>
    split at hSize
    · cases hSize
    · cases hSize
  | true =>
    split at hSize
    · cases hSize
    · cases hSize

/-- The chunks of `T` up to `s`, with `D` above them. -/
def Filling (N : Nat) (T D : BitVec 64) (s : Nat) (R : BitVec 64) : Prop :=
  ∀ i < 4, chunk R i = if i < N then if i ≤ s then chunk T i else D else 0

theorem Filling.skip (hR : Filling N T D s R) (hT : chunk T (s + 1) = D) :
    Filling N T D (s + 1) R := by
  intro i hi
  rw [hR i hi]
  by_cases heq : i = s + 1
  · rw [heq, if_neg (by omega : ¬s + 1 ≤ s), if_pos (Nat.le_refl _), hT]
  · by_cases hle : i ≤ s
    · rw [if_pos hle, if_pos (by omega : i ≤ s + 1)]
    · rw [if_neg hle, if_neg (by omega : ¬i ≤ s + 1)]

theorem Filling.set (h : Register BitSize N) (hR : Filling N T D s R) (hc : chunk T (s + 1) = c) :
    Filling N T D (s + 1) (sized BitSize (setChunk R (s + 1) c)) := by
  intro i hi
  rw [chunk_sized h _ hi]
  by_cases hlt : i < N
  · rw [if_pos hlt, if_pos hlt, chunk_setChunk hi (hc ▸ chunk_lt T (s + 1)), hR i hi, if_pos hlt]
    by_cases heq : i = s + 1
    · rw [if_pos heq, if_pos (by omega : i ≤ s + 1), heq, hc]
    · rw [if_neg heq]
      by_cases hle : i ≤ s
      · rw [if_pos hle, if_pos (by omega : i ≤ s + 1)]
      · rw [if_neg hle, if_neg (by omega : ¬i ≤ s + 1)]
  · rw [if_neg hlt, if_neg hlt]

theorem moveChunks_spec (h : Register BitSize N) (hImm : ∀ i < N, chunk Imm i = chunk T i)
    {b : Nat} (hsb : s ≤ b) (hb : b < N) (hn : b - s < n) :
    ∃ rest, moveChunks Imm (movkOpc BitSize) D (b * 16) n (s * 16) = some rest ∧
      rest.length ≤ b - s ∧ (∀ I ∈ rest, I.LogicalOk) ∧
      ∀ R, Filling N T D s R → ∃ R', execAll rest R = some R' ∧ Filling N T D b R' := by
  have hN : N ≤ 4 := by
    unfold Register at h
    omega
  induction n generalizing s with
  | zero => exact absurd hn (Nat.not_lt_zero _)
  | succ n ih =>
    unfold moveChunks
    by_cases hlt : s < b
    · have hshift : s * 16 + 16 = (s + 1) * 16 := by omega
      obtain ⟨rest, hrest, hlen, hok, hexec⟩ := ih (s := s + 1) hlt (by omega)
      rw [if_pos (by omega : s * 16 < b * 16)]
      dsimp only
      have hfold : Imm >>> ((s + 1) * 16) &&& 0xFFFF = chunk Imm (s + 1) := rfl
      rw [hshift, shr_eq (by omega), hrest]
      simp only [Option.bind_eq_bind, Option.bind_some]
      rw [hfold]
      have hchunk := hImm (s + 1) (by omega)
      by_cases hskip : chunk Imm (s + 1) = D
      · rw [if_pos hskip]
        refine ⟨rest, rfl, by omega, hok, ?_⟩
        intro R hR
        exact hexec R (hR.skip (hchunk.symm.trans hskip))
      · rw [if_neg hskip, getShifterImm_eq (by omega)]
        refine ⟨_, rfl, ?_, ?_, ?_⟩
        · rw [List.length_cons]
          omega
        · intro I hI
          rcases List.mem_cons.mp hI with heq | hmem
          · rw [heq]
            exact movk_logicalOk BitSize _ _
          · exact hok I hmem
        · intro R hR
          obtain ⟨R', hrun, hR'⟩ := hexec _ (hR.set h hchunk.symm)
          refine ⟨R', ?_, hR'⟩
          rw [execAll_cons, exec_movk h (by omega) (chunk_lt Imm (s + 1)), Option.bind_some, hrun]
    · rw [if_neg (by omega : ¬s * 16 < b * 16)]
      refine ⟨[], rfl, Nat.zero_le _, fun I hI => absurd hI List.not_mem_nil, ?_⟩
      intro R hR
      have heq : s = b := by omega
      rw [← heq]
      exact ⟨R, rfl, hR⟩

/-! ## Moves alone -/

def firstChunk (X : BitVec 64) : Nat := if X ≠ 0 then countr_zero X / 16 else 0

def lastChunk (X : BitVec 64) : Nat := if X ≠ 0 then (63 - countl_zero X) / 16 else 0

theorem chunk_eq_zero (h : ∀ j < 16, X.getLsbD (i * 16 + j) = false) : chunk X i = 0 := by
  apply chunk_ext (chunk_lt _ _) (by decide)
  intro j hj
  rw [getLsbD_chunk, h j hj, Bool.and_false]
  exact (BitVec.getLsbD_zero).symm

theorem chunks_spec (X : BitVec 64) :
    firstChunk X ≤ lastChunk X ∧ lastChunk X < 4 ∧ (X ≠ 0 → chunk X (lastChunk X) ≠ 0) ∧
      ∀ i, i < firstChunk X ∨ lastChunk X < i → chunk X i = 0 := by
  unfold firstChunk lastChunk
  by_cases hzero : X = 0
  · rw [if_neg (not_not.mpr hzero), if_neg (not_not.mpr hzero), hzero]
    exact ⟨Nat.le_refl 0, by decide, fun hne => absurd rfl hne, fun i _ => chunk_zero i⟩
  · rw [if_pos hzero, if_pos hzero]
    obtain ⟨hfirst, hlow⟩ := countr_zero_spec hzero
    obtain ⟨hlast, hhigh⟩ := countl_zero_spec (by decide) hzero
    have hle : countr_zero X ≤ 63 - countl_zero X := by
      by_contra hlt
      rw [hhigh _ (Nat.not_le.mp hlt)] at hfirst
      cases hfirst
    refine ⟨Nat.div_le_div_right hle, by omega, ?_, ?_⟩
    · intro _ hchunk
      rw [getLsbD_eq_chunk, hchunk] at hlast
      exact Bool.false_ne_true (BitVec.getLsbD_zero.symm.trans hlast)
    · intro i hi
      apply chunk_eq_zero
      intro j hj
      rcases hi with hbelow | habove
      · exact hlow _ (by omega)
      · exact hhigh _ (by omega)

/-- The chunks of the immediate are those of the word that is moved, or their complements. -/
def Moved (N : Nat) (isNeg : Bool) (X Imm : BitVec 64) : Prop :=
  ∀ i < N, chunk Imm i = if isNeg then chunk X i ^^^ 0xFFFF else chunk X i

def defaultChunk (isNeg : Bool) : BitVec 64 := if isNeg then 0xFFFF else 0

theorem Moved.default (h : Moved N isNeg X Imm) (hi : i < N) (hnull : chunk X i = 0) :
    chunk Imm i = defaultChunk isNeg := by
  rw [h i hi, hnull]
  cases isNeg with
  | false => rfl
  | true => rfl

theorem moved_sized (h : Register BitSize N) (isNeg : Bool) (Imm : BitVec 64) :
    Moved N isNeg (sized BitSize (if isNeg then ~~~Imm else Imm)) Imm := by
  intro i hi
  have hN : i < 4 := by
    unfold Register at h
    omega
  rw [chunk_sized h _ hN, if_pos hi]
  cases isNeg with
  | false => rfl
  | true =>
    rw [if_pos rfl, if_pos rfl, chunk_not Imm hN, BitVec.xor_assoc, BitVec.xor_self,
      BitVec.xor_zero]

theorem Moved.first (h : Register BitSize N) {a : Nat} (hmoved : Moved N isNeg X Imm)
    (hzero : ∀ i < a, chunk X i = 0) :
    Filling N Imm (defaultChunk isNeg) a (sized BitSize
      (if isNeg then ~~~setChunk 0 a (chunk X a) else setChunk 0 a (chunk X a))) := by
  intro i hi
  rw [chunk_sized h _ hi]
  by_cases hiN : i < N
  · rw [if_pos hiN, if_pos hiN]
    have hset : chunk (setChunk 0 a (chunk X a)) i = if i = a then chunk X i else 0 := by
      rw [chunk_setChunk hi (chunk_lt X a), chunk_zero]
      split
      · next heq => rw [heq]
      · rfl
    have hsigned : chunk (if isNeg then ~~~setChunk 0 a (chunk X a)
        else setChunk 0 a (chunk X a)) i =
        if i = a then chunk Imm i else defaultChunk isNeg := by
      rw [hmoved i hiN]
      cases isNeg with
      | false => exact hset
      | true =>
        rw [if_pos rfl, if_pos rfl, chunk_not _ hi, hset]
        split
        · rfl
        · rfl
    rw [hsigned]
    by_cases heq : i = a
    · rw [if_pos heq, if_pos (Nat.le_of_eq heq)]
    · rw [if_neg heq]
      by_cases hbelow : i ≤ a
      · rw [if_pos hbelow, hmoved.default hiN (hzero i (by omega))]
      · rw [if_neg hbelow]
  · rw [if_neg hiN, if_neg hiN]

theorem Filling.eq_sized (h : Register BitSize N) {b : Nat}
    (hR : Filling N Imm (defaultChunk isNeg) b R) (hmoved : Moved N isNeg X Imm)
    (hzero : ∀ i, b < i → chunk X i = 0) : R = sized BitSize Imm := by
  apply eq_sized_of_chunks h
  intro i hi
  rw [hR i hi]
  by_cases hiN : i < N
  · rw [if_pos hiN, if_pos hiN]
    by_cases hbelow : i ≤ b
    · rw [if_pos hbelow]
    · rw [if_neg hbelow, hmoved.default hiN (hzero i (Nat.not_le.mp hbelow))]
  · rw [if_neg hiN, if_neg hiN]

theorem lastChunk_lt (h : Register BitSize N) (Imm : BitVec 64) :
    lastChunk (sized BitSize Imm) < N := by
  obtain ⟨_, hlt, hne, _⟩ := chunks_spec (sized BitSize Imm)
  by_contra hge
  by_cases hnull : sized BitSize Imm = 0
  · have hpos : 0 < N := by
      unfold Register at h
      omega
    unfold lastChunk at hge
    rw [if_neg (not_not.mpr hnull)] at hge
    exact hge hpos
  · apply hne hnull
    rw [chunk_sized h Imm hlt, if_neg hge]

theorem and_mask_eq_sized (BitSize : Nat) (x : BitVec 64) :
    (if BitSize = 32 then x &&& ((1 : BitVec 64) <<< 32 - 1) else x) = sized BitSize x := by
  unfold sized
  by_cases hsmall : BitSize = 32
  · rw [if_pos hsmall, if_pos hsmall]
    apply BitVec.eq_of_getLsbD_eq
    intro i _
    rw [BitVec.getLsbD_and, getLsbD_ones (by decide), getLsbD_narrow, Bool.and_comm]
  · rw [if_neg hsmall, if_neg hsmall]

theorem shift_eq (X : BitVec 64) (n : Nat) :
    (if X ≠ 0 then n / 16 * 16 else 0) = (if X ≠ 0 then n / 16 else 0) * 16 := by
  split
  · rfl
  · rfl

theorem expandMOVImmSimple_spec (h : Register BitSize N) (Imm : BitVec 64)
    (OneChunks ZeroChunks : Nat) :
    ∃ Insn, expandMOVImmSimple Imm BitSize OneChunks ZeroChunks = some Insn ∧
      Builds Insn (sized BitSize Imm) := by
  have hN : N ≤ 4 := by
    unfold Register at h
    omega
  unfold expandMOVImmSimple
  dsimp only
  rw [and_mask_eq_sized, shift_eq, shift_eq]
  generalize decide (ZeroChunks < OneChunks) = isNeg
  have hmoved := moved_sized h isNeg Imm
  have hlast := lastChunk_lt h (if isNeg then ~~~Imm else Imm)
  generalize sized BitSize (if isNeg then ~~~Imm else Imm) = X at hmoved hlast ⊢
  obtain ⟨hle, hlt, _, hzero⟩ := chunks_spec X
  change ∃ Insn, (shr X (firstChunk X * 16)).bind _ = _ ∧ _
  have hfirst := hmoved.first h fun i hi => hzero i (Or.inl hi)
  have hexec := exec_first h isNeg (by omega : firstChunk X < N) (chunk_lt X (firstChunk X))
  rw [shr_eq (by omega), Option.bind_some]
  change ∃ Insn, (getShifterImm (firstChunk X * 16)).bind _ = _ ∧ _
  rw [getShifterImm_eq (by omega), Option.bind_some]
  change ∃ Insn, (if firstChunk X * 16 = lastChunk X * 16 then _ else _) = _ ∧ _
  by_cases hsame : firstChunk X * 16 = lastChunk X * 16
  · rw [if_pos hsame]
    refine ⟨_, rfl, Nat.le_add_left 1 3, ?_, ?_⟩
    · intro I hI
      rw [List.mem_singleton.mp hI]
      exact first_logicalOk BitSize isNeg _ _
    · intro Rd
      have heq : firstChunk X = lastChunk X := by omega
      rw [execAll_cons]
      refine (congrArg (Option.bind · (execAll [])) (hexec Rd)).trans ?_
      refine congrArg some (hfirst.eq_sized h hmoved ?_)
      intro i hi
      exact hzero i (Or.inr (by omega))
  · rw [if_neg hsame]
    have hImm : ∀ i < N, chunk (if isNeg then ~~~X else X) i = chunk Imm i := by
      intro i hi
      rw [hmoved i hi]
      cases isNeg with
      | false => rfl
      | true => exact chunk_not X (by omega)
    obtain ⟨rest, hrest, hlen, hok, hmoves⟩ := moveChunks_spec h hImm hle hlast
      (by omega : lastChunk X - firstChunk X < 4) (D := defaultChunk isNeg)
    change ∃ Insn, (moveChunks (if isNeg then ~~~X else X) (movkOpc BitSize)
      (defaultChunk isNeg) (lastChunk X * 16) 4 (firstChunk X * 16)).bind _ = _ ∧ _
    rw [hrest, Option.bind_some]
    refine ⟨_, rfl, ?_, ?_, ?_⟩
    · rw [List.length_cons]
      omega
    · intro I hI
      rcases List.mem_cons.mp hI with heq | hmem
      · rw [heq]
        exact first_logicalOk BitSize isNeg _ _
      · exact hok I hmem
    · intro Rd
      obtain ⟨R, hsteps, hR⟩ := hmoves _ hfirst
      rw [execAll_cons, ← hR.eq_sized h hmoved fun i hi => hzero i (Or.inr hi), ← hsteps]
      exact congrArg (Option.bind · (execAll rest)) (hexec Rd)

end SmlnjLlvm.AArch64
