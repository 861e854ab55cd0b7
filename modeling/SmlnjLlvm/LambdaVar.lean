import SmlnjLlvm.Asdl.Integer

/-!
# Variable identifiers

The compiler writes an identifier as a 63-bit word: three bits of the first
byte count the further bytes, and the other five are the top of the value. The
reader shifts the bytes into a 64-bit integer and casts the result to `int`
before it is widened to `lvar`.
-/

namespace SmlnjLlvm.LambdaVar

open ByteDecoder BigEndian Asdl

def wordSize : Nat := 63

def mask : Nat := (1 <<< (wordSize - 2)) - 1

def toByte (w : Nat) : UInt8 := UInt8.ofNat w

/-- Convert a word to a list of bytes, most significant first. -/
def cvt (w : Nat) (bytes : Bytes) : Bytes :=
  if w = 0 then bytes else cvt (w >>> 8) (toByte w :: bytes)
termination_by w
decreasing_by
  rw [Nat.shiftRight_eq_div_pow]
  omega

def writeLvar (id : Nat) : Bytes :=
  let w := id &&& mask
  match cvt w [] with
  | [] => [0]
  | b0 :: rest =>
    let (b0, rest) := if b0 ≤ 0x1f then (b0, rest) else (0, b0 :: rest)
    let n := rest.length <<< 5
    (toByte n ||| b0) :: rest

/-- `lvar` is `int64_t`, but the value passes through `static_cast<int>`. -/
def readLvar : Reader Int :=
  leadByte (fun b0 => (b0 >>> 5).toNat) (fun b0 => (b0 &&& 0x1f).toNat) fun _ v => castInt v

def readLvarSeq : Reader (List Int) := do
  let len ← readUint
  readMany readLvar len

/-! ## The bytes of a word -/

theorem cvt_append (w : Nat) (bytes : Bytes) : cvt w bytes = cvt w [] ++ bytes := by
  induction w using Nat.strongRecOn generalizing bytes with
  | ind w ih =>
    by_cases hw : w = 0
    · subst hw
      simp [cvt]
    · have hlt : w >>> 8 < w := by
        rw [Nat.shiftRight_eq_div_pow]
        omega
      have hnil : cvt w [] = cvt (w >>> 8) [toByte w] := by
        rw [cvt, if_neg hw]
      rw [hnil, ih _ hlt [toByte w], cvt, if_neg hw, ih _ hlt, List.append_assoc]
      rfl

theorem cvt_succ {w : Nat} (hw : w ≠ 0) : cvt w [] = cvt (w >>> 8) [] ++ [toByte w] := by
  rw [cvt, if_neg hw, cvt_append]

theorem beFrom_cvt (w : Nat) : beFrom 0 (cvt w []) = w := by
  induction w using Nat.strongRecOn with
  | ind w ih =>
    by_cases hw : w = 0
    · subst hw
      simp [cvt, beFrom]
    · have hlt : w >>> 8 < w := by
        rw [Nat.shiftRight_eq_div_pow]
        omega
      rw [cvt_succ hw, beFrom_append, ih _ hlt]
      exact beFrom_two w

theorem cvt_head {w : Nat} {b0 : UInt8} {rest : Bytes} (h : cvt w [] = b0 :: rest) :
    b0.toNat ≠ 0 := by
  induction w using Nat.strongRecOn generalizing rest with
  | ind w ih =>
    have hw : w ≠ 0 := by
      rintro rfl
      simp [cvt] at h
    have hlt : w >>> 8 < w := by
      rw [Nat.shiftRight_eq_div_pow]
      omega
    rw [cvt_succ hw] at h
    cases hc : cvt (w >>> 8) [] with
    | nil =>
      -- the word fits in its last byte
      have hz : w >>> 8 = 0 := by
        rw [← beFrom_cvt (w >>> 8), hc]
        rfl
      rw [hc] at h
      simp only [List.nil_append, List.cons.injEq] at h
      rw [← h.1, toByte, byte_toNat_ofNat]
      omega
    | cons c cs =>
      rw [hc, List.cons_append, List.cons.injEq] at h
      exact ih _ hlt (by rw [hc, h.1])

theorem lead_lvar {n : Nat} (b0 : UInt8) (hn : n < 8) (hb : b0.toNat < 32) :
    ((toByte (n <<< 5) ||| b0) >>> 5).toNat = n ∧
      ((toByte (n <<< 5) ||| b0) &&& 0x1f).toNat = b0.toNat := by
  have hfield : (toByte (n <<< 5)).toNat = 2 ^ 5 * n := by
    rw [toByte, byte_toNat_ofNat, Nat.shiftLeft_eq]
    omega
  have hval : (toByte (n <<< 5) ||| b0).toNat = 32 * n + b0.toNat := by
    rw [UInt8.toNat_or, hfield, field_or hb]
    rfl
  refine ⟨?_, ?_⟩
  · rw [UInt8.toNat_shiftRight, hval]
    rw [show UInt8.toNat 5 % 8 = 5 from rfl, Nat.shiftRight_eq_div_pow]
    omega
  · rw [show (0x1f : UInt8) = UInt8.ofNat (2 ^ 5 - 1) from rfl, toNat_and_mask _ 5 (by decide), hval]
    omega

theorem writeLvar_spec {id : Nat} (hid : id < 2 ^ 61) :
    ∃ b0 rest, writeLvar id = b0 :: rest ∧ rest.length = (b0 >>> 5).toNat ∧
      beFrom (b0 &&& 0x1f).toNat rest = id := by
  have hmask : id &&& mask = id := Nat.and_two_pow_sub_one_of_lt_two_pow hid
  rw [writeLvar]
  simp only [hmask]
  cases hc : cvt id [] with
  | nil =>
    have hz : id = 0 := by
      rw [← beFrom_cvt id, hc]
      rfl
    subst hz
    exact ⟨0, [], rfl, rfl, rfl⟩
  | cons b0 rest =>
    have hval : beFrom 0 (b0 :: rest) = id := by rw [← hc, beFrom_cvt]
    have hpos := cvt_head hc
    have hbound : b0.toNat * 256 ^ rest.length < 2 ^ 61 := by
      rw [beFrom_cons, beFrom_eq, Nat.zero_mul, Nat.zero_add] at hval
      omega
    by_cases hb : b0 ≤ 0x1f
    · -- the top byte fits in five bits
      have hb' : b0.toNat < 32 := Nat.lt_succ_of_le (UInt8.le_iff_toNat_le.mp hb)
      have hlen : rest.length < 8 := by
        by_contra hn
        have hp : 256 ^ 8 ≤ 256 ^ rest.length := Nat.pow_le_pow_right (by decide) (by omega)
        have hm := Nat.mul_le_mul (Nat.one_le_iff_ne_zero.mpr hpos) hp
        omega
      obtain ⟨hcount, hlow⟩ := lead_lvar b0 hlen hb'
      simp only [hb, if_true]
      refine ⟨_, _, rfl, hcount.symm, ?_⟩
      rw [hlow, ← hval, beFrom_cons, Nat.zero_mul, Nat.zero_add]
    · -- the top byte moves to the next position
      have hb' : 32 ≤ b0.toNat := by
        have := UInt8.le_iff_toNat_le.not.mp hb
        exact Nat.succ_le_of_lt (Nat.lt_of_not_le this)
      have hlen : rest.length + 1 < 8 := by
        by_contra hn
        have hp : 256 ^ 7 ≤ 256 ^ rest.length := Nat.pow_le_pow_right (by decide) (by omega)
        have hm := Nat.mul_le_mul hb' hp
        omega
      obtain ⟨hcount, hlow⟩ := lead_lvar 0 hlen (by decide)
      simp only [hb, if_false]
      refine ⟨_, _, rfl, hcount.symm, ?_⟩
      rw [List.length_cons, hlow]
      exact hval

theorem readLvar_decodes {id : Nat} (hid : id < 2 ^ 61) :
    Decodes readLvar (writeLvar id) (castInt id) := by
  obtain ⟨b0, rest, hw, hlen, hval⟩ := writeLvar_spec hid
  have hd : Decodes readLvar (b0 :: rest) (castInt (beFrom (b0 &&& 0x1f).toNat rest)) :=
    leadByte_decodes hlen
  rwa [hval, ← hw] at hd

theorem readLvar_hungry : Hungry DecodeError.invalidIOState readLvar := leadByte_hungry

theorem writeLvar_ne_nil {id : Nat} (hid : id < 2 ^ 61) : writeLvar id ≠ [] := by
  obtain ⟨b0, rest, hw, _⟩ := writeLvar_spec hid
  rw [hw]
  exact List.cons_ne_nil b0 rest

theorem writeLvar_small {id : Nat} (h : id < 32) : ∃ b0, writeLvar id = [b0] := by
  have hmask : id &&& mask = id := Nat.and_two_pow_sub_one_of_lt_two_pow (n := 61) (by omega)
  rw [writeLvar]
  simp only [hmask]
  by_cases hz : id = 0
  · subst hz
    exact ⟨0, by simp [cvt]⟩
  · have hshift : id >>> 8 = 0 := by
      rw [Nat.shiftRight_eq_div_pow]
      omega
    have hb : toByte id ≤ 0x1f := by
      rw [UInt8.le_iff_toNat_le, toByte, byte_toNat_ofNat]
      exact Nat.le_of_lt_succ (Nat.mod_lt_of_lt h)
    have hbytes : cvt id [] = [toByte id] := by
      rw [cvt_succ hz, hshift, cvt, if_pos rfl]
      rfl
    refine ⟨toByte (0 <<< 5) ||| toByte id, ?_⟩
    simp only [hbytes, hb, if_true, List.length_nil]

theorem readLvar_cut {id : Nat} (hid : id < 2 ^ 61) :
    Cut DecodeError.invalidIOState readLvar (writeLvar id) (id < 32) fun _ => True := by
  obtain ⟨b0, rest, hw, hlen, hval⟩ := writeLvar_spec hid
  have hone : rest = [] ↔ id < 32 := by
    constructor
    · rintro rfl
      rw [← hval, beFrom, show (0x1f : UInt8) = UInt8.ofNat (2 ^ 5 - 1) from rfl,
        toNat_and_mask _ 5 (by decide)]
      exact Nat.mod_lt _ (by decide)
    · intro h
      obtain ⟨c, hc⟩ := writeLvar_small h
      rw [hw] at hc
      exact (List.cons.inj hc).2
  have heof : (eofByte >>> 5).toNat ≠ 0 := by decide
  have hcut : Cut DecodeError.invalidIOState readLvar (b0 :: rest) (rest = []) _ :=
    leadByte_cut hlen heof
  rw [hw]
  exact (hcut.mono fun _ _ => trivial).congr hone

theorem castInt_eq_iff {v : Nat} (hv : v < 2 ^ 61) : castInt v = (v : Int) ↔ v < 2 ^ 31 := by
  rw [castInt, BitVec.toInt_eq_toNat_cond, BitVec.toNat_ofNat]
  split <;> omega

theorem castInt_inj_iff {v v' : Nat} : castInt v = castInt v' ↔ v % 2 ^ 32 = v' % 2 ^ 32 := by
  rw [castInt, castInt, BitVec.toInt_inj, BitVec.toNat_eq, BitVec.toNat_ofNat, BitVec.toNat_ofNat]

/-- The identifiers that come back unchanged, and the pairs that become one variable. -/
theorem readLvar_roundTrips_iff {id : Nat} (hid : id < 2 ^ 61) :
    (Decodes readLvar (writeLvar id) (id : Int) ↔ id < 2 ^ 31) ∧
      ∀ id' < 2 ^ 61,
        (∃ v, Decodes readLvar (writeLvar id) v ∧ Decodes readLvar (writeLvar id') v) ↔
          id % 2 ^ 32 = id' % 2 ^ 32 := by
  have hd := readLvar_decodes hid
  refine ⟨⟨fun h => ?_, fun h => ?_⟩, fun id' hid' => ⟨?_, fun h => ?_⟩⟩
  · exact (castInt_eq_iff hid).mp (hd.unique h)
  · rwa [(castInt_eq_iff hid).mpr h] at hd
  · rintro ⟨v, hv, hv'⟩
    exact castInt_inj_iff.mp ((hd.unique hv).trans ((readLvar_decodes hid').unique hv').symm)
  · have hd' := readLvar_decodes hid'
    rw [← castInt_inj_iff.mpr h] at hd'
    exact ⟨_, hd, hd'⟩

theorem readLvar_roundTrips_4660 :
    4660 < 2 ^ 61 ∧ Decodes readLvar (writeLvar 4660) (4660 : Int) :=
  ⟨by decide, (readLvar_roundTrips_iff (show 4660 < 2 ^ 61 by decide)).1.mpr (by decide)⟩

/-- The first identifier that is lost, and one that is read back as variable 0. -/
theorem readLvar_truncates :
    ¬ Decodes readLvar (writeLvar 2147483648) (2147483648 : Int) ∧
      Decodes readLvar (writeLvar 4294967296) 0 ∧ Decodes readLvar (writeLvar 0) 0 := by
  refine ⟨fun h => ?_, readLvar_decodes (show 4294967296 < 2 ^ 61 by decide),
    readLvar_decodes (show 0 < 2 ^ 61 by decide)⟩
  have hval := (readLvar_decodes (show 2147483648 < 2 ^ 61 by decide)).unique h
  exact absurd hval (by decide)

end SmlnjLlvm.LambdaVar
