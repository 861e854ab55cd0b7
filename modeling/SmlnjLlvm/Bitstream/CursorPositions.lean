import SmlnjLlvm.Bitstream.SimpleCursor
import SmlnjLlvm.Library.Alignment

/-!
# The bit cursor as a position in a byte string

The purpose of the cursor: a byte string and the number of the next bit. Every
call is a function of the two, and the cursor refines them as long as no
boundary is sought from the first half of a last word of five to seven bytes.
-/

namespace SmlnjLlvm.Bitstream

open BitString

/-- A call of the cursor, without the values it returns. -/
inductive CursorCall where
  | Read (NumBits : Nat)
  | ReadVBR (NumBits : Nat)
  | ReadVBR64 (NumBits : Nat)
  | SkipToFourByteBoundary
  | JumpToBit (BitNo : Nat)
  deriving DecidableEq, Repr

def CursorCall.Legal (bytes : Bytes) : CursorCall → Prop
  | .Read n => 1 ≤ n ∧ n ≤ 64
  | .ReadVBR n => 1 ≤ n ∧ n ≤ 32
  | .ReadVBR64 n => 1 ≤ n ∧ n ≤ 32
  | .SkipToFourByteBoundary => True
  | .JumpToBit b => b / 64 * 8 ≤ bytes.length

instance (bytes : Bytes) (call : CursorCall) : Decidable (call.Legal bytes) := by
  cases call <;> unfold CursorCall.Legal <;> infer_instance

/-- What a run of calls shows: the number each call returns, if it returns one, and the bit
number after it, up to the first error. -/
inductive Trace where
  | done
  | failed (code : Errc)
  | stuck
  | call (value : Option Nat) (bitNo : Nat) (rest : Trace)
  deriving DecidableEq, Repr

namespace BitPosition

abbrev Run (α : Type) := Call Nat Errc α

variable (bytes : Bytes)

def Read (n : Nat) : Run Nat := fun pos =>
  if pos + n ≤ size bytes then .ok (bitsAt bytes pos n, pos + n) else .error .io_error

/-- The number made of the chunks of `n` bits from the `i`-th on. The top bit of a chunk says that
another one follows, and a number has no chunk whose first bit lies outside `W` bits. -/
def chunks (W n : Nat) : Nat → Nat → Run Nat
  | 0, _ => Call.fail .io_error
  | left + 1, i => do
      let chunk ← Read bytes n
      if chunk < 2 ^ (n - 1) then
        pure (chunk * 2 ^ ((n - 1) * i))
      else if W ≤ (n - 1) * (i + 1) then
        Call.fail .illegal_byte_sequence
      else
        let rest ← chunks W n left (i + 1)
        pure (chunk % 2 ^ (n - 1) * 2 ^ ((n - 1) * i) + rest)

def ReadVBR (W n : Nat) : Run Nat := do
  let value ← chunks bytes W n (size bytes + 1) 0
  pure (value % 2 ^ W)

def SkipToFourByteBoundary : Run Unit := fun pos =>
  .ok ((), min (Alignment.roundUp pos 32) (size bytes))

def JumpToBit (b : Nat) : Run Unit := fun _ =>
  if b ≤ size bytes then .ok ((), b) else .error .io_error

def step : CursorCall → Run (Option Nat)
  | .Read n => some <$> Read bytes n
  | .ReadVBR n => some <$> ReadVBR bytes 32 n
  | .ReadVBR64 n => some <$> ReadVBR bytes 64 n
  | .SkipToFourByteBoundary => (fun _ => none) <$> SkipToFourByteBoundary bytes
  | .JumpToBit b => (fun _ => none) <$> JumpToBit bytes b

def trace : List CursorCall → Nat → Trace
  | [], _ => .done
  | call :: rest, pos =>
    match step bytes call pos with
    | .ok (value, pos') => .call value pos' (trace rest pos')
    | .error code => .failed code
    | .stuck => .stuck

end BitPosition

namespace SimpleBitstreamCursor

def step : CursorCall → Run (Option Nat)
  | .Read n => (fun v => some v.toNat) <$> Read n
  | .ReadVBR n => (fun v => some v.toNat) <$> ReadVBR n
  | .ReadVBR64 n => (fun v => some v.toNat) <$> ReadVBR64 n
  | .SkipToFourByteBoundary => (fun _ => none) <$> SkipToFourByteBoundary
  | .JumpToBit b => (fun _ => none) <$> JumpToBit b

def trace : List CursorCall → SimpleBitstreamCursor → Trace
  | [], _ => .done
  | call :: rest, c =>
    match step call c with
    | .ok (value, c') => .call value c'.GetCurrentBitNo (trace rest c')
    | .error e => .failed e.code
    | .stuck => .stuck

def Refines {α β : Type} (bytes : Bytes) (V : α → β → Prop) (m : Run α) (m' : BitPosition.Run β) :
    Prop :=
  ∀ c pos, At c bytes pos → Outcome.Agree (fun e code => e.code = code)
    (fun r r' => V r.1 r'.1 ∧ At r.2 bytes r'.2) (m c) (m' pos)

namespace Refines

variable {bytes : Bytes} {α β γ δ : Type} {V : α → β → Prop} {W : γ → δ → Prop}

theorem map {m : Run α} {m' : BitPosition.Run β} {f : α → γ} {f' : β → δ}
    (h : Refines bytes V m m') (hf : ∀ a b, V a b → W (f a) (f' b)) :
    Refines bytes W (f <$> m) (f' <$> m') := by
  intro c pos hc
  exact (h c pos hc).bind fun r r' hr => ⟨hf r.1 r'.1 hr.1, hr.2⟩

end Refines

theorem Read_refines (bytes : Bytes) {n : Nat} (hn : 1 ≤ n ∧ n ≤ 64) :
    Refines bytes (fun v b => v.toNat = b) (Read n) (BitPosition.Read bytes n) := by
  intro c pos hc
  rw [BitPosition.Read]
  split
  · next hle =>
    obtain ⟨c', hread, hc'⟩ := hc.read hn hle
    rw [hread]
    refine ⟨?_, hc'⟩
    have hlt : bitsAt bytes pos n < 2 ^ 64 :=
      Nat.lt_of_lt_of_le (bitsAt_lt pos n) (Nat.pow_le_pow_right (by decide) hn.2)
    exact (BitVec.toNat_ofNat _ _).trans (Nat.mod_eq_of_lt hlt)
  · next hgt =>
    obtain ⟨e, hread, he⟩ := hc.read_error hn (by omega)
    rw [hread]
    exact he

theorem JumpToBit_refines (bytes : Bytes) {b : Nat} (hb : b / 64 * 8 ≤ bytes.length) :
    Refines bytes (fun _ _ => True) (JumpToBit b) (BitPosition.JumpToBit bytes b) := by
  intro c pos hc
  rw [BitPosition.JumpToBit]
  split
  · next hle =>
    obtain ⟨c', hjump, hc'⟩ := hc.jump hle
    rw [hjump]
    exact ⟨trivial, hc'⟩
  · next hgt =>
    obtain ⟨e, hjump, he⟩ := hc.jump_error (by omega) hb
    rw [hjump]
    exact he

/-! ## Numbers of variable width -/

variable {W n : Nat}

theorem and_twoPow_eq_zero_iff {x : BitVec 32} (hn : 1 ≤ n ∧ n ≤ 32) (hx : x.toNat < 2 ^ n) :
    x &&& BitVec.twoPow 32 (n - 1) = 0 ↔ x.toNat < 2 ^ (n - 1) := by
  have hsize : x.toNat < 2 ^ (n - 1 + 1) := by rwa [Nat.sub_add_cancel hn.1]
  have hnonzero : BitVec.twoPow 32 (n - 1) ≠ 0#32 := by
    intro h
    have hzero := congrArg BitVec.toNat h
    rw [BitVec.toNat_twoPow_of_lt (by omega), BitVec.toNat_ofNat, Nat.zero_mod] at hzero
    omega
  rw [BitVec.and_twoPow, BitVec.getLsbD]
  by_cases hlt : x.toNat < 2 ^ (n - 1)
  · simp [hlt, Nat.testBit_lt_two_pow hlt]
  · have hbit : x.toNat.testBit (n - 1) = true :=
      Nat.testBit_of_two_pow_le_and_two_pow_add_one_gt (by omega) hsize
    simp [hlt, hbit, hnonzero]

theorem toNat_and_pred_twoPow (x : BitVec 32) (hn : 1 ≤ n ∧ n ≤ 32) :
    (x &&& (BitVec.twoPow 32 (n - 1) - 1)).toNat = x.toNat % 2 ^ (n - 1) := by
  have htop : (BitVec.twoPow 32 (n - 1)).toNat = 2 ^ (n - 1) :=
    BitVec.toNat_twoPow_of_lt (by omega)
  have hone : (1 : BitVec 32).toNat ≤ (BitVec.twoPow 32 (n - 1)).toNat := by
    rw [htop]
    exact Nat.two_pow_pos _
  rw [BitVec.toNat_and, BitVec.toNat_sub_of_le (BitVec.le_def.mpr hone), htop]
  exact Nat.and_two_pow_sub_one_eq_mod _ _

theorem toNat_or_shiftLeft_cut {a b : BitVec W} {k : Nat} (ha : a.toNat < 2 ^ k) :
    (a ||| b <<< k).toNat = (a.toNat + b.toNat * 2 ^ k) % 2 ^ W := by
  have hdisjoint : a &&& b <<< k = 0#W := by
    apply BitVec.eq_of_getLsbD_eq
    intro i hi
    rw [BitVec.getLsbD_and, BitVec.getLsbD_shiftLeft, BitVec.getLsbD_zero]
    by_cases hik : i < k
    · simp [hik]
    · have hlow : a.getLsbD i = false :=
        Nat.testBit_lt_two_pow (Nat.lt_of_lt_of_le ha (Nat.pow_le_pow_right (by decide) (by omega)))
      rw [hlow, Bool.false_and]
  rw [← BitVec.add_eq_or_of_and_eq_zero _ _ hdisjoint, BitVec.toNat_add, BitVec.toNat_shiftLeft,
    Nat.shiftLeft_eq, Nat.add_mod_mod]

def afterChunk (bytes : Bytes) (W n left i chunk : Nat) : BitPosition.Run Nat :=
  if chunk < 2 ^ (n - 1) then
    pure (chunk * 2 ^ ((n - 1) * i))
  else if W ≤ (n - 1) * (i + 1) then
    Call.fail .illegal_byte_sequence
  else do
    let rest ← BitPosition.chunks bytes W n left (i + 1)
    pure (chunk % 2 ^ (n - 1) * 2 ^ ((n - 1) * i) + rest)

theorem chunks_of_read {bytes : Bytes} {W n left i pos : Nat} (h : pos + n ≤ size bytes) :
    BitPosition.chunks bytes W n (left + 1) i pos =
      afterChunk bytes W n left i (bitsAt bytes pos n) (pos + n) := by
  refine Call.bind_of_ok ?_
  rw [BitPosition.Read, if_pos h]

theorem chunks_of_end {bytes : Bytes} {W n left i pos : Nat} (h : ¬pos + n ≤ size bytes) :
    BitPosition.chunks bytes W n (left + 1) i pos = .error .io_error := by
  refine Call.bind_of_error ?_
  rw [BitPosition.Read, if_neg h]

theorem result_lt {acc chunk k i n : Nat} (hacc : acc < 2 ^ (k * i)) (hchunk : chunk < 2 ^ n)
    (hkn : n ≤ k) : acc + chunk * 2 ^ (k * i) < 2 ^ (k * (i + 1)) := by
  have hle : chunk + 1 ≤ 2 ^ k :=
    Nat.lt_of_lt_of_le hchunk (Nat.pow_le_pow_right (by decide) hkn)
  calc acc + chunk * 2 ^ (k * i) < 2 ^ (k * i) + chunk * 2 ^ (k * i) := by omega
    _ = (chunk + 1) * 2 ^ (k * i) := by rw [Nat.succ_mul, Nat.add_comm]
    _ ≤ 2 ^ k * 2 ^ (k * i) := Nat.mul_le_mul_right _ hle
    _ = 2 ^ (k * (i + 1)) := by rw [← Nat.pow_add, Nat.mul_succ, Nat.add_comm]

theorem toNat_result {acc i : Nat} {Result : BitVec W} {Piece : BitVec 32} (hn : 1 ≤ n ∧ n ≤ 32)
    (hW : 32 ≤ W) (hacc : acc < 2 ^ ((n - 1) * i)) (hresult : Result.toNat = acc) :
    (Result ||| (Piece &&& (BitVec.twoPow 32 (n - 1) - 1)).setWidth W <<< ((n - 1) * i)).toNat =
      (acc + Piece.toNat % 2 ^ (n - 1) * 2 ^ ((n - 1) * i)) % 2 ^ W := by
  have hlow : (Piece &&& (BitVec.twoPow 32 (n - 1) - 1)).toNat < 2 ^ W :=
    Nat.lt_of_lt_of_le (BitVec.isLt _) (Nat.pow_le_pow_right (by decide) hW)
  rw [toNat_or_shiftLeft_cut (by rw [hresult]; exact hacc), hresult, BitVec.toNat_setWidth,
    Nat.mod_eq_of_lt hlow, toNat_and_pred_twoPow _ hn]

/-- The loop from a piece that has been read, by induction on its turns: the result holds the
chunks before the piece. -/
theorem vbrLoop_refines {bytes : Bytes} (hn : 1 ≤ n ∧ n ≤ 32) (hW : 32 ≤ W) (fuel : Nat) :
    ∀ (left i acc pos : Nat) (c : SimpleBitstreamCursor) (Result : BitVec W) (Piece : BitVec 32),
      At c bytes pos → size bytes - pos < fuel → size bytes - pos < left →
      Piece.toNat < 2 ^ n → (n - 1) * i < W → acc < 2 ^ ((n - 1) * i) → Result.toNat = acc →
      Outcome.Agree (fun e code => e.code = code)
        (fun r r' => r.1.toNat = (acc + r'.1) % 2 ^ W ∧ At r.2 bytes r'.2)
        (vbrLoop W n (BitVec.twoPow 32 (n - 1)) fuel Result ((n - 1) * i) Piece c)
        (afterChunk bytes W n left i Piece.toNat pos) := by
  induction fuel with
  | zero =>
    intro left i acc pos c Result Piece _ hfuel
    exact absurd hfuel (Nat.not_lt_zero _)
  | succ fuel ih =>
    intro left i acc pos c Result Piece hc hfuel hleft hpiece hi hacc hresult
    have hnew := @toNat_result _ _ _ _ _ Piece hn hW hacc hresult
    rw [vbrLoop, afterChunk]
    simp only
    by_cases hlast : Piece.toNat < 2 ^ (n - 1)
    · rw [if_pos ((and_twoPow_eq_zero_iff hn hpiece).mpr hlast), if_pos hlast]
      refine ⟨?_, hc⟩
      rw [hnew, Nat.mod_eq_of_lt hlast]
    · rw [if_neg fun h => hlast ((and_twoPow_eq_zero_iff hn hpiece).mp h), if_neg hlast]
      rw [← Nat.mul_succ]
      by_cases hstop : W ≤ (n - 1) * (i + 1)
      · rw [if_pos hstop, if_pos hstop]
        exact rfl
      · rw [if_neg hstop, if_neg hstop]
        obtain ⟨left, rfl⟩ := Nat.exists_eq_succ_of_ne_zero (Nat.ne_of_gt
          (Nat.lt_of_le_of_lt (Nat.zero_le _) hleft))
        by_cases hend : pos + n ≤ size bytes
        · obtain ⟨c', hread, hc'⟩ := hc.read ⟨hn.1, by omega⟩ hend
          have hlow : Piece.toNat % 2 ^ (n - 1) < 2 ^ (n - 1) :=
            Nat.mod_lt _ (Nat.two_pow_pos _)
          have hacc' := result_lt hacc hlow (Nat.le_refl _)
          have hcut := Nat.lt_of_lt_of_le hacc'
            (Nat.pow_le_pow_right (by decide) (Nat.le_of_not_le hstop))
          rw [Nat.mod_eq_of_lt hcut] at hnew
          have hpiece' : ((BitVec.ofNat 64 (bitsAt bytes pos n)).setWidth 32).toNat =
              bitsAt bytes pos n := by
            have hlt : bitsAt bytes pos n < 2 ^ 32 := Nat.lt_of_lt_of_le (bitsAt_lt pos n)
              (Nat.pow_le_pow_right (by decide) hn.2 : 2 ^ n ≤ 2 ^ 32)
            rw [BitVec.toNat_setWidth, BitVec.toNat_ofNat]
            omega
          have hrest := ih left (i + 1) _ (pos + n) c' _ _ hc' (by omega) (by omega)
            (by rw [hpiece']; exact bitsAt_lt pos n) (by omega) hacc' hnew
          rw [Call.bind_of_ok hread, Call.bind_run, chunks_of_read hend]
          rw [hpiece'] at hrest
          refine hrest.map_right (W := fun r (r' : Nat × Nat) =>
            r.1.toNat = (acc + r'.1) % 2 ^ W ∧ At r.2 bytes r'.2) ?_
          intro r r' hr
          exact ⟨by rw [hr.1, Nat.add_assoc], hr.2⟩
        · obtain ⟨e, hread, he⟩ := hc.read_error ⟨hn.1, by omega⟩ (Nat.lt_of_not_le hend)
          rw [Call.bind_of_error hread, Call.bind_of_error (chunks_of_end hend)]
          exact he

theorem readVBRInto_refines (bytes : Bytes) (hn : 1 ≤ n ∧ n ≤ 32) (hW : 32 ≤ W) :
    Refines bytes (fun (v : BitVec W) b => v.toNat = b) (readVBRInto W n)
      (BitPosition.ReadVBR bytes W n) := by
  intro c pos hc
  by_cases hend : pos + n ≤ size bytes
  · obtain ⟨c', hread, hc'⟩ := hc.read ⟨hn.1, by omega⟩ hend
    have hchunk : bitsAt bytes pos n < 2 ^ n := bitsAt_lt pos n
    have hpiece : ((BitVec.ofNat 64 (bitsAt bytes pos n)).setWidth 32).toNat =
        bitsAt bytes pos n := by
      have hlt := Nat.lt_of_lt_of_le hchunk (Nat.pow_le_pow_right (by decide) hn.2 : 2 ^ n ≤ 2 ^ 32)
      rw [BitVec.toNat_setWidth, BitVec.toNat_ofNat]
      omega
    rw [readVBRInto, Call.bind_of_ok hread, Call.assert_of hn.symm, pure_bind, BitPosition.ReadVBR,
      Call.bind_run, chunks_of_read hend]
    by_cases hlast : bitsAt bytes pos n < 2 ^ (n - 1)
    · rw [if_pos ((and_twoPow_eq_zero_iff hn (by rw [hpiece]; exact hchunk)).mpr
        (by rw [hpiece]; exact hlast)), afterChunk, if_pos hlast, Nat.mul_zero, Nat.pow_zero,
        Nat.mul_one]
      refine ⟨?_, hc'⟩
      exact (BitVec.toNat_setWidth _ _).trans (by rw [hpiece])
    · rw [if_neg fun h => hlast (by rw [← hpiece]; exact
        (and_twoPow_eq_zero_iff hn (by rw [hpiece]; exact hchunk)).mp h),
        Call.bind_of_ok (Call.get_run c'), hc'.bytes_eq, hc'.bitNo]
      have hloop := vbrLoop_refines hn hW (size bytes - (pos + n) + 1) (size bytes) 0 0 (pos + n) c'
        (0 : BitVec W) ((BitVec.ofNat 64 (bitsAt bytes pos n)).setWidth 32) hc' (by omega)
        (by omega) (by rw [hpiece]; exact hchunk) (by omega) (Nat.two_pow_pos _)
        (by rw [BitVec.ofNat_eq_ofNat, BitVec.toNat_zero])
      rw [hpiece] at hloop
      refine hloop.map_right (W := fun r (r' : Nat × Nat) => r.1.toNat = r'.1 ∧
        At r.2 bytes r'.2) ?_
      intro r r' hr
      exact ⟨by rw [hr.1, Nat.zero_add], hr.2⟩
  · obtain ⟨e, hread, he⟩ := hc.read_error ⟨hn.1, by omega⟩ (Nat.lt_of_not_le hend)
    rw [readVBRInto, Call.bind_of_error hread, BitPosition.ReadVBR,
      Call.bind_of_error (chunks_of_end hend)]
    exact he

theorem chunks_ok {bytes : Bytes} {left : Nat} :
    ∀ {i pos b pos' : Nat}, BitPosition.chunks bytes W n left i pos = .ok (b, pos') →
      pos + n ≤ pos' := by
  induction left with
  | zero =>
    intro i pos b pos' h
    cases h
  | succ left ih =>
    intro i pos b pos' h
    by_cases hend : pos + n ≤ size bytes
    · rw [chunks_of_read hend, afterChunk] at h
      split at h
      · cases h
        exact Nat.le_refl _
      · split at h
        · cases h
        · obtain ⟨rest, stop, hrest, hpure⟩ := Call.bind_eq_ok.mp h
          cases hpure
          have hle := ih hrest
          omega
    · rw [chunks_of_end hend] at h
      cases h

theorem At.of_readVBR {bytes : Bytes} {c c' : SimpleBitstreamCursor} {pos : Nat}
    (h : At c bytes pos) (hn : 1 ≤ n ∧ n ≤ 32) (hW : 32 ≤ W) {v : BitVec W}
    (hread : readVBRInto W n c = .ok (v, c')) : ∃ pos', pos + n ≤ pos' ∧ At c' bytes pos' := by
  have hagree := readVBRInto_refines bytes hn hW c pos h
  rw [hread] at hagree
  cases hpos : BitPosition.ReadVBR bytes W n pos with
  | ok r =>
    rw [hpos] at hagree
    obtain ⟨value, stop, hchunks, hpure⟩ := Call.bind_eq_ok.mp hpos
    cases hpure
    exact ⟨_, chunks_ok hchunks, hagree.2⟩
  | error e =>
    rw [hpos] at hagree
    exact hagree.elim
  | stuck =>
    rw [hpos] at hagree
    exact hagree.elim

/-- The position is not in the first half of a last word of five to seven bytes. There the bits
cached do not reach from the next boundary to the end of a word. -/
def BoundaryExact (bytes : Bytes) (pos : Nat) : Prop :=
  bytes.length % 8 ≤ 4 ∨ pos ≤ bytes.length / 8 * 64 ∨ bytes.length / 8 * 64 + 32 < pos

theorem skipTarget_eq_iff {bytes : Bytes} {pos : Nat} (hpos : pos ≤ size bytes) :
    skipTarget bytes pos = min (Alignment.roundUp pos 32) (size bytes) ↔
      BoundaryExact bytes pos := by
  rw [skipTarget, Alignment.roundUp, BoundaryExact]
  rw [size] at hpos ⊢
  split <;> omega

def RunExact (bytes : Bytes) : List CursorCall → Nat → Prop
  | [], _ => True
  | call :: rest, pos =>
    (call = .SkipToFourByteBoundary → BoundaryExact bytes pos) ∧
      ∀ value pos', BitPosition.step bytes call pos = .ok (value, pos') → RunExact bytes rest pos'

theorem runExact_of_length {bytes : Bytes} (h : bytes.length % 8 ≤ 4) (calls : List CursorCall)
    (pos : Nat) : RunExact bytes calls pos := by
  induction calls generalizing pos with
  | nil => trivial
  | cons call rest ih => exact ⟨fun _ => .inl h, fun _ pos' _ => ih pos'⟩

theorem step_agrees {c : SimpleBitstreamCursor} {bytes : Bytes} {pos : Nat} (hc : At c bytes pos)
    {call : CursorCall} (hlegal : call.Legal bytes)
    (hexact : call = .SkipToFourByteBoundary → BoundaryExact bytes pos) :
    Outcome.Agree (fun e code => e.code = code) (fun r r' => r.1 = r'.1 ∧ At r.2 bytes r'.2)
      (step call c) (BitPosition.step bytes call pos) := by
  cases call with
  | Read n =>
    exact (Read_refines bytes hlegal).map (W := Eq) (fun v b hv => congrArg some hv) c pos hc
  | ReadVBR n =>
    exact (readVBRInto_refines bytes hlegal (by omega)).map (W := Eq)
      (fun v b hv => congrArg some hv) c pos hc
  | ReadVBR64 n =>
    exact (readVBRInto_refines bytes hlegal (by omega)).map (W := Eq)
      (fun v b hv => congrArg some hv) c pos hc
  | SkipToFourByteBoundary =>
    obtain ⟨c', hskip, hc'⟩ := hc.skip
    rw [(skipTarget_eq_iff hc.pos_le).mpr (hexact rfl)] at hc'
    rw [step, map_eq_pure_bind, Call.bind_of_ok hskip]
    exact ⟨rfl, hc'⟩
  | JumpToBit b =>
    exact (JumpToBit_refines bytes hlegal).map (W := Eq) (fun v b _ => rfl) c pos hc

theorem trace_agrees {bytes : Bytes} (calls : List CursorCall) :
    ∀ {c : SimpleBitstreamCursor} {pos : Nat}, At c bytes pos →
      (∀ call ∈ calls, call.Legal bytes) → RunExact bytes calls pos →
      trace calls c = BitPosition.trace bytes calls pos := by
  induction calls with
  | nil =>
    intro c pos _ _ _
    rfl
  | cons call rest ih =>
    intro c pos hc hlegal hexact
    have hstep := step_agrees hc (hlegal call (List.mem_cons_self ..)) hexact.1
    rw [trace, BitPosition.trace]
    revert hstep
    cases step call c with
    | ok r =>
      cases hpos : BitPosition.step bytes call pos with
      | ok r' =>
        intro hstep
        have hrest := ih hstep.2 (fun call hcall => hlegal call (List.mem_cons_of_mem _ hcall))
          (hexact.2 r'.1 r'.2 hpos)
        simp only
        rw [hstep.1, hstep.2.bitNo, hrest]
      | error code => exact False.elim
      | stuck => exact False.elim
    | error e =>
      cases BitPosition.step bytes call pos with
      | ok r' => exact False.elim
      | error code =>
        intro hstep
        exact congrArg Trace.failed hstep
      | stuck => exact False.elim
    | stuck =>
      cases BitPosition.step bytes call pos with
      | ok r' => exact False.elim
      | error code => exact False.elim
      | stuck => exact fun _ => rfl

/-- Every run of legal calls on a fresh cursor shows what the run of positions shows, when each
boundary is sought from a position where the condition holds. -/
theorem cursor_refines_position (bytes : Bytes) (calls : List CursorCall)
    (hlegal : ∀ call ∈ calls, call.Legal bytes) (hexact : RunExact bytes calls 0) :
    trace calls ⟨bytes, 0, 0, 0⟩ = BitPosition.trace bytes calls 0 :=
  trace_agrees calls (At.fresh bytes) hlegal hexact

theorem cursor_refines_position_words :
    trace [.Read 3, .ReadVBR 6, .SkipToFourByteBoundary, .ReadVBR64 1, .JumpToBit 70, .Read 9]
        ⟨[7, 1, 2, 3, 0xff, 5, 6, 7, 8, 9, 10, 11], 0, 0, 0⟩ =
      BitPosition.trace [7, 1, 2, 3, 0xff, 5, 6, 7, 8, 9, 10, 11]
        [.Read 3, .ReadVBR 6, .SkipToFourByteBoundary, .ReadVBR64 1, .JumpToBit 70, .Read 9] 0 :=
  cursor_refines_position _ _ (by decide) (runExact_of_length (by decide) _ _)

/-- From bit 1 of five bytes the cursor goes to bit 8, not to the boundary at bit 32. -/
theorem boundary_missed_in_short_word :
    ¬∀ (bytes : Bytes) (calls : List CursorCall), (∀ call ∈ calls, call.Legal bytes) →
      trace calls ⟨bytes, 0, 0, 0⟩ = BitPosition.trace bytes calls 0 := by
  intro h
  have hrun := h [0, 0, 0, 0, 0] [.Read 1, .SkipToFourByteBoundary] (by decide)
  revert hrun
  decide

end SimpleBitstreamCursor

end SmlnjLlvm.Bitstream
