import Mathlib.Algebra.Order.Ring.Nat
import Mathlib.Data.List.Induction
import SmlnjLlvm.Asdl.Integer

/-!
# Digits of multiprecision integers

Repacking keeps the magnitude that the value bits of an encoding spell. The
number of digits follows from the number of bits, so an encoding with more bytes
than it needs can get a leading zero digit.
-/

namespace SmlnjLlvm.Asdl

open ByteDecoder BigEndian

def magnitude (digits : List UInt32) : Nat := digits.foldl (fun v d => v * 2 ^ 32 + d.toNat) 0

def Normalised (digits : List UInt32) : Prop := ∀ d ∈ digits.head?, d ≠ 0

theorem magnitude_append_singleton (digits : List UInt32) (d : UInt32) :
    magnitude (digits ++ [d]) = magnitude digits * 2 ^ 32 + d.toNat := by
  rw [magnitude, List.foldl_append]
  rfl

theorem magnitude_lt (digits : List UInt32) : magnitude digits < 2 ^ (32 * digits.length) := by
  induction digits using List.reverseRecOn with
  | nil => exact Nat.one_pos
  | append_singleton digits d ih =>
    have hd := d.toNat_lt
    rw [magnitude_append_singleton, List.length_append, List.length_singleton, Nat.mul_succ,
      Nat.pow_add]
    omega

theorem magnitude_cons (d : UInt32) (digits : List UInt32) :
    magnitude (d :: digits) = d.toNat * 2 ^ (32 * digits.length) + magnitude digits := by
  induction digits using List.reverseRecOn with
  | nil => simp [magnitude]
  | append_singleton digits e ih =>
    rw [← List.cons_append, magnitude_append_singleton, magnitude_append_singleton, ih,
      List.length_append, List.length_singleton, Nat.mul_succ, Nat.pow_add, Nat.add_mul,
      Nat.mul_assoc, Nat.add_assoc]

theorem normalised_iff {d : UInt32} {digits : List UInt32} :
    Normalised (d :: digits) ↔ 2 ^ (32 * digits.length) ≤ magnitude (d :: digits) := by
  rw [magnitude_cons]
  have hrest := magnitude_lt digits
  constructor
  · intro h
    have hd : 1 ≤ d.toNat := by
      rw [Nat.one_le_iff_ne_zero]
      exact fun hzero => h d rfl (UInt32.toNat_inj.mp hzero)
    have hle := Nat.mul_le_mul_right (2 ^ (32 * digits.length)) hd
    omega
  · rintro h e ⟨rfl⟩ hzero
    rw [hzero] at h
    simp only [UInt32.toNat_zero, Nat.zero_mul, Nat.zero_add] at h
    omega

def groupsFrom (acc : Nat) (groups : Bytes) : Nat :=
  groups.foldl (fun v g => v * 2 ^ 7 + g.toNat) acc

/-! ## Repacking -/

/-- The digits and the one under construction hold the magnitude of the bits so far. -/
structure Packed (st : Packing) (m : Nat) : Prop where
  avail : st.availBits.toNat ≤ 32
  low : st.w.toNat < 2 ^ (32 - st.availBits.toNat)
  value : magnitude st.digits * 2 ^ (32 - st.availBits.toNat) + st.w.toNat = m

def Packing.placed (st : Packing) : Nat := 32 * st.digits.length + 32 - st.availBits.toNat

theorem shiftLeft_or_toNat {w k : UInt32} (hk : k.toNat < 32)
    (hw : w.toNat < 2 ^ (32 - k.toNat)) {low : UInt32} (hlow : low.toNat < 2 ^ k.toNat) :
    ((w <<< k) ||| low).toNat = w.toNat * 2 ^ k.toNat + low.toNat := by
  have hfit : w.toNat * 2 ^ k.toNat < 2 ^ 32 := by
    have hlt := Nat.mul_lt_mul_of_pos_right hw (Nat.two_pow_pos k.toNat)
    rwa [← Nat.pow_add, Nat.sub_add_cancel (Nat.le_of_lt hk)] at hlt
  rw [UInt32.toNat_or, UInt32.toNat_shiftLeft, Nat.mod_eq_of_lt hk, Nat.shiftLeft_eq,
    Nat.mod_eq_of_lt hfit, Nat.mul_comm, field_or hlow]

theorem toNat_ofNat_of_le {n : Nat} (h : n ≤ 32) : (UInt32.ofNat n).toNat = n :=
  UInt32.toNat_ofNat_of_lt' (Nat.lt_of_le_of_lt h (by decide))

theorem highBits_toNat (b : UInt8) {k : UInt32} (hk : k.toNat < 32) :
    (b.toUInt32 >>> k).toNat = b.toNat / 2 ^ k.toNat := by
  rw [UInt32.toNat_shiftRight, Nat.mod_eq_of_lt hk, UInt8.toNat_toUInt32, Nat.shiftRight_eq_div_pow]

theorem lowBits_toNat (b : UInt8) {k : UInt32} (hk : k.toNat < 32) :
    (b.toUInt32 &&& ((1 <<< k) - 1)).toNat = b.toNat % 2 ^ k.toNat := by
  have hone : ((1 : UInt32) <<< k).toNat = 2 ^ k.toNat := by
    rw [UInt32.toNat_shiftLeft, Nat.mod_eq_of_lt hk, Nat.shiftLeft_eq]
    show 1 * 2 ^ k.toNat % 2 ^ 32 = 2 ^ k.toNat
    rw [Nat.one_mul]
    exact Nat.mod_eq_of_lt (Nat.pow_lt_pow_right (by decide) hk)
  have hmask : ((1 <<< k) - 1 : UInt32).toNat = 2 ^ k.toNat - 1 := by
    rw [UInt32.toNat_sub_of_le, hone]
    · rfl
    · rw [UInt32.le_iff_toNat_le, hone]
      exact Nat.two_pow_pos _
  rw [UInt32.toNat_and, hmask, UInt8.toNat_toUInt32, Nat.and_two_pow_sub_one_eq_mod]

theorem packNext_spec {st : Packing} {m : Nat} (h : Packed st m) {b : UInt8} (hb : b.toNat < 2 ^ 7) :
    Packed (packNext st b) (m * 2 ^ 7 + b.toNat) ∧
      (packNext st b).placed = st.placed + 7 ∧ (packNext st b).availBits.toNat < 32 := by
  obtain ⟨digits, w, availBits⟩ := st
  obtain ⟨havail, hlow, hvalue⟩ := h
  dsimp only at havail hlow hvalue
  have hbyte : b.toUInt32.toNat = b.toNat := UInt8.toNat_toUInt32 b
  unfold packNext Packing.placed
  by_cases hroom : availBits ≥ 7
  · have hle : 7 ≤ availBits.toNat := hroom
    have hnew : (availBits - 7).toNat = availBits.toNat - 7 :=
      UInt32.toNat_sub_of_le availBits 7 hroom
    have hw : w.toNat < 2 ^ (32 - 7) :=
      Nat.lt_of_lt_of_le hlow (Nat.pow_le_pow_right Nat.two_pos (by omega))
    have hnext : ((w <<< 7) ||| b.toUInt32).toNat = w.toNat * 2 ^ 7 + b.toNat := by
      rw [← hbyte]
      exact shiftLeft_or_toNat (by decide) hw (hbyte ▸ hb)
    have hexp : 32 - (availBits.toNat - 7) = 32 - availBits.toNat + 7 := by omega
    rw [if_pos hroom]
    refine ⟨⟨?_, ?_, ?_⟩, ?_, ?_⟩
    all_goals dsimp only
    · omega
    · rw [hnext, hnew, hexp, Nat.pow_add]
      omega
    · rw [hnext, hnew, hexp, Nat.pow_add, ← hvalue, Nat.add_mul, Nat.mul_assoc, Nat.add_assoc]
    · omega
    · omega
  · have hlt : availBits.toNat < 7 := Nat.not_le.mp hroom
    have hexcess : (7 - availBits).toNat = 7 - availBits.toNat :=
      UInt32.toNat_sub_of_le 7 availBits (Nat.le_of_lt hlt)
    have hsmall : (7 - availBits).toNat < 32 := by omega
    have hhigh := highBits_toNat b hsmall
    have hrest := lowBits_toNat b hsmall
    rw [hexcess] at hhigh hrest
    have hnew : (32 - (7 - availBits)).toNat = 32 - (7 - availBits.toNat) := by
      rw [UInt32.toNat_sub_of_le, hexcess]
      · rfl
      · rw [UInt32.le_iff_toNat_le, hexcess]
        exact Nat.le_trans (Nat.sub_le _ _) (by decide)
    have htop : ((w <<< availBits) ||| (b.toUInt32 >>> (7 - availBits))).toNat =
        w.toNat * 2 ^ availBits.toNat + b.toNat / 2 ^ (7 - availBits.toNat) := by
      rw [← hhigh]
      refine shiftLeft_or_toNat (by omega) hlow ?_
      rw [hhigh, Nat.div_lt_iff_lt_mul (Nat.two_pow_pos _), ← Nat.pow_add]
      rwa [show availBits.toNat + (7 - availBits.toNat) = 7 by omega]
    have hexp : 32 - (32 - (7 - availBits.toNat)) = 7 - availBits.toNat := by omega
    rw [if_neg hroom]
    refine ⟨⟨?_, ?_, ?_⟩, ?_, ?_⟩
    all_goals dsimp only
    · omega
    · rw [hrest, hnew, hexp]
      exact Nat.mod_lt _ (Nat.two_pow_pos _)
    · rw [hrest, hnew, hexp, magnitude_append_singleton, htop, ← hvalue]
      have hwhole : 2 ^ 32 * 2 ^ (7 - availBits.toNat) = 2 ^ (32 - availBits.toNat) * 2 ^ 7 := by
        rw [← Nat.pow_add, ← Nat.pow_add]
        congr 1
        omega
      have hseven : 2 ^ availBits.toNat * 2 ^ (7 - availBits.toNat) = 2 ^ 7 := by
        rw [← Nat.pow_add]
        congr 1
        omega
      have hsplit := Nat.div_add_mod' b.toNat (2 ^ (7 - availBits.toNat))
      rw [Nat.add_mul, Nat.add_mul, Nat.mul_assoc, hwhole, Nat.mul_assoc, hseven, Nat.add_mul,
        Nat.mul_assoc, Nat.add_assoc, Nat.add_assoc, hsplit, Nat.add_assoc]
    · rw [hnew, List.length_append, List.length_singleton]
      omega
    · omega

theorem firstBits_spec (b : UInt8) (hb : b.toNat < 2 ^ 6) :
    b.toNat < 2 ^ firstBits b ∧ firstBits b ≤ 6 ∧ (0 < firstBits b → 2 ^ (firstBits b - 1) ≤ b.toNat) := by
  have hall : ∀ n < 64, (UInt8.ofNat n).toNat < 2 ^ firstBits (UInt8.ofNat n) ∧
      firstBits (UInt8.ofNat n) ≤ 6 ∧
        (0 < firstBits (UInt8.ofNat n) → 2 ^ (firstBits (UInt8.ofNat n) - 1) ≤ (UInt8.ofNat n).toNat) := by
    decide
  have hsame : UInt8.ofNat b.toNat = b := UInt8.ofNat_toNat
  rw [← hsame]
  exact hall b.toNat hb

theorem packFirst_spec {b : UInt8} (hb : b.toNat < 2 ^ 6) {nbits : Nat} (hn : 0 < nbits) :
    Packed (packFirst b nbits) b.toNat ∧
      (packFirst b nbits).placed + (nbits - 1) % 32 + 1 = 32 + firstBits b ∧
        (0 < firstBits b → (packFirst b nbits).availBits.toNat < 32) := by
  obtain ⟨hlt, hsix, -⟩ := firstBits_spec b hb
  have hbyte : b.toUInt32.toNat = b.toNat := UInt8.toNat_toUInt32 b
  obtain ⟨r, hr⟩ : ∃ r, r = if nbits % 32 = 0 then 32 else nbits % 32 := ⟨_, rfl⟩
  have hrange : r = (nbits - 1) % 32 + 1 := by
    rw [hr]
    split <;> omega
  unfold packFirst Packing.placed
  rw [← hr]
  by_cases hover : r < firstBits b
  · rw [if_pos hover]
    obtain ⟨k, hk⟩ : ∃ k, k = firstBits b - r := ⟨_, rfl⟩
    have hsmall : k < 32 := by omega
    rw [← hk]
    have hkNat : (UInt32.ofNat k).toNat = k := toNat_ofNat_of_le (Nat.le_of_lt hsmall)
    have hnew : (UInt32.ofNat (32 - k)).toNat = 32 - k := toNat_ofNat_of_le (Nat.sub_le _ _)
    have hhigh := highBits_toNat b (hkNat.trans_lt hsmall)
    have hrest := lowBits_toNat b (hkNat.trans_lt hsmall)
    rw [hkNat] at hhigh hrest
    have hexp : 32 - (32 - k) = k := by omega
    refine ⟨⟨?_, ?_, ?_⟩, ?_, ?_⟩
    all_goals dsimp only
    · omega
    · rw [hrest, hnew, hexp]
      exact Nat.mod_lt _ (Nat.two_pow_pos _)
    · have hone : magnitude [b.toUInt32 >>> UInt32.ofNat k] = b.toNat / 2 ^ k := by
        rw [magnitude_cons, hhigh]
        simp [magnitude]
      rw [hone, hrest, hnew, hexp]
      exact Nat.div_add_mod' b.toNat (2 ^ k)
    · rw [hnew, List.length_singleton]
      omega
    · omega
  · rw [if_neg hover]
    have hnew : (UInt32.ofNat (r - firstBits b)).toNat = r - firstBits b :=
      toNat_ofNat_of_le (by omega)
    refine ⟨⟨?_, ?_, ?_⟩, ?_, ?_⟩
    all_goals dsimp only
    · omega
    · rw [hbyte, hnew]
      exact Nat.lt_of_lt_of_le hlt (Nat.pow_le_pow_right Nat.two_pos (by omega))
    · rw [hbyte, magnitude, List.foldl_nil, Nat.zero_mul, Nat.zero_add]
    · rw [hnew, List.length_nil]
      omega
    · omega

theorem packGroups_spec {groups : Bytes} (hgroups : ∀ g ∈ groups, g.toNat < 2 ^ 7) {st : Packing}
    {m : Nat} (h : Packed st m) :
    Packed (groups.foldl packNext st) (groupsFrom m groups) ∧
      (groups.foldl packNext st).placed = st.placed + 7 * groups.length ∧
        (groups ≠ [] ∨ st.availBits.toNat < 32 →
          (groups.foldl packNext st).availBits.toNat < 32) := by
  induction groups generalizing st m with
  | nil => exact ⟨h, rfl, fun hroom => hroom.resolve_left (not_not.mpr rfl)⟩
  | cons g groups ih =>
    obtain ⟨hpacked, hplaced, hroom⟩ := packNext_spec h (hgroups g List.mem_cons_self)
    obtain ⟨hall, hcount, hlast⟩ := ih (fun x hx => hgroups x (List.mem_cons_of_mem _ hx)) hpacked
    refine ⟨hall, ?_, fun _ => hlast (Or.inr hroom)⟩
    rw [List.foldl_cons, hcount, hplaced, List.length_cons]
    omega

theorem castInt_pos {v : Nat} (h : 0 < castInt v) :
    0 < v ∧ 0 < (castInt v).toNat ∧ ((castInt v).toNat - 1) % 32 = (v - 1) % 32 := by
  unfold castInt at h ⊢
  rw [BitVec.toInt_eq_toNat_cond, BitVec.toNat_ofNat] at h ⊢
  split at h
  · rename_i hlow
    rw [if_pos hlow]
    omega
  · omega

theorem ofGroups_sign (sign : Bool) (b : UInt8) (groups : Bytes) :
    (Integer.ofGroups sign b groups).sign = sign := by
  unfold Integer.ofGroups
  simp only
  split <;> rfl

theorem ofGroups_spec (sign : Bool) {b : UInt8} (hb : b.toNat < 2 ^ 6) {groups : Bytes}
    (hgroups : ∀ g ∈ groups, g.toNat < 2 ^ 7)
    (hpos : 0 < castInt (groups.length * 7 + firstBits b)) :
    magnitude (Integer.ofGroups sign b groups).digits = groupsFrom b.toNat groups ∧
      (Integer.ofGroups sign b groups).digits.length =
        (groups.length * 7 + firstBits b - 1) / 32 + 1 := by
  obtain ⟨htotal, hnat, hmod⟩ := castInt_pos hpos
  obtain ⟨hfirst, hplaced, hroom⟩ := packFirst_spec hb hnat
  obtain ⟨hall, hcount, hlast⟩ := packGroups_spec hgroups hfirst
  unfold Integer.ofGroups
  simp only [if_pos hpos]
  generalize groups.foldl packNext (packFirst b (castInt (groups.length * 7 + firstBits b)).toNat) =
    st at hall hcount hlast
  have hlt : st.availBits.toNat < 32 := by
    apply hlast
    by_cases hnil : groups = []
    · right
      apply hroom
      rw [hnil, List.length_nil] at htotal
      omega
    · exact Or.inl hnil
  unfold Packing.placed at hcount hplaced
  -- All bits have been placed, so no bit of the last digit is free.
  have hfull : st.availBits.toNat = 0 := by omega
  obtain ⟨_, hlow, hvalue⟩ := hall
  rw [hfull] at hvalue hcount
  refine ⟨?_, ?_⟩
  · rw [magnitude_append_singleton]
    exact hvalue
  · rw [List.length_append, List.length_singleton]
    omega

/-! ## The stream constructor -/

def Integer.repack (sign : Bool) (b : UInt8) (groups : Bytes) : Option Integer :=
  if 0 < castInt (groups.length * 7 + firstBits b) ∧ 2 ^ 31 ≤ groups.length + 1 then none
  else some (Integer.ofGroups sign b groups)

/-- `integer::integer (instream &)`; there is no value where the count of bytes is undefined. -/
def Integer.ofStream : Reader (Option Integer) := do
  let b ← getb
  let groups ← readGroups b
  pure (Integer.repack (b &&& 0x40 ≠ 0) (b &&& 0x3f) groups)

def encodedMagnitude : Bytes → Nat
  | [] => 0
  | b :: rest => groupsFrom (b &&& 0x3f).toNat (rest.map (· &&& 0x7f))

def encodedSign : Bytes → Bool
  | [] => false
  | b :: _ => b &&& 0x40 ≠ 0

def encodedBits : Bytes → Nat
  | [] => 0
  | b :: rest => rest.length * 7 + firstBits (b &&& 0x3f)

def Repackable (bytes : Bytes) : Prop :=
  if 0 < castInt (encodedBits bytes) then
    bytes.length < 2 ^ 31 ∧ 2 ^ (32 * ((encodedBits bytes - 1) / 32)) ≤ encodedMagnitude bytes
  else encodedMagnitude bytes = 0

theorem valueBits_lt (b : UInt8) : (b &&& 0x3f).toNat < 2 ^ 6 := by
  rw [show (0x3f : UInt8) = UInt8.ofNat (2 ^ 6 - 1) from rfl, toNat_and_mask b 6 (by decide)]
  exact Nat.mod_lt _ (by decide)

theorem groupBits_lt (rest : Bytes) : ∀ g ∈ rest.map (· &&& 0x7f), g.toNat < 2 ^ 7 := by
  intro g hg
  obtain ⟨c, _, rfl⟩ := List.mem_map.mp hg
  rw [show (0x7f : UInt8) = UInt8.ofNat (2 ^ 7 - 1) from rfl, toNat_and_mask c 7 (by decide)]
  exact Nat.mod_lt _ (by decide)

def ReadsInteger (bytes : Bytes) : Prop :=
  ∃ z, Decodes Integer.ofStream bytes (some z) ∧ z.sign = encodedSign bytes ∧
    magnitude z.digits = encodedMagnitude bytes ∧ Normalised z.digits

theorem ofStream_decodes {b : UInt8} {rest : Bytes} (h : IntegerEncoding (b :: rest)) :
    Decodes Integer.ofStream (b :: rest)
      (Integer.repack (b &&& 0x40 ≠ 0) (b &&& 0x3f) (rest.map (· &&& 0x7f))) :=
  (getb_decodes b).bind ((readGroups_decodes b rest h).map _)

theorem repack_of_decodes {b : UInt8} {rest : Bytes} (h : IntegerEncoding (b :: rest)) {z : Integer}
    (hz : Decodes Integer.ofStream (b :: rest) (some z)) :
    Integer.repack (b &&& 0x40 ≠ 0) (b &&& 0x3f) (rest.map (· &&& 0x7f)) = some z := by
  have hsame := (ofStream_decodes h []).symm.trans (hz [])
  exact congrArg Prod.fst (Except.ok.inj hsame)

theorem exists_ofStream {bytes : Bytes} (h : IntegerEncoding bytes)
    (hcount : 0 < castInt (encodedBits bytes) → bytes.length < 2 ^ 31) :
    ∃ z, Decodes Integer.ofStream bytes (some z) := by
  cases bytes with
  | nil => exact h.elim
  | cons b rest =>
    have hdecodes := ofStream_decodes h
    have hlength : (rest.map (· &&& 0x7f)).length = rest.length := List.length_map _
    rw [Integer.repack, hlength, if_neg] at hdecodes
    · exact ⟨_, hdecodes⟩
    · exact fun hboth => absurd (hcount hboth.1) (Nat.not_lt.mpr hboth.2)

theorem ofStream_digits {bytes : Bytes} (h : IntegerEncoding bytes) {z : Integer}
    (hz : Decodes Integer.ofStream bytes (some z)) :
    z.sign = encodedSign bytes ∧
      if 0 < castInt (encodedBits bytes) then
        bytes.length < 2 ^ 31 ∧ magnitude z.digits = encodedMagnitude bytes ∧
          z.digits.length = (encodedBits bytes - 1) / 32 + 1
      else z.digits = [] := by
  cases bytes with
  | nil => exact h.elim
  | cons b rest =>
    have hrepack := repack_of_decodes h hz
    have hlength : (rest.map (· &&& 0x7f)).length = rest.length := List.length_map _
    unfold Integer.repack at hrepack
    split at hrepack
    · cases hrepack
    · rename_i hdefined
      cases hrepack
      refine ⟨ofGroups_sign _ _ _, ?_⟩
      rw [encodedBits, ← hlength]
      by_cases hpos : 0 < castInt ((rest.map (· &&& 0x7f)).length * 7 + firstBits (b &&& 0x3f))
      · rw [if_pos hpos]
        have hspec := ofGroups_spec (b &&& 0x40 ≠ 0) (valueBits_lt b) (groupBits_lt rest) hpos
        refine ⟨?_, hspec⟩
        rw [List.length_cons, ← hlength]
        exact Nat.not_le.mp fun hlarge => hdefined ⟨hpos, hlarge⟩
      · rw [if_neg hpos, Integer.ofGroups]
        simp only [if_neg hpos]

theorem normalised_of_length {digits : List UInt32} {n : Nat} (h : digits.length = n + 1) :
    Normalised digits ↔ 2 ^ (32 * n) ≤ magnitude digits := by
  cases digits with
  | nil => cases h
  | cons d digits => rw [normalised_iff, ← Nat.add_right_cancel h]

theorem normalised_nil : Normalised [] := by
  intro d hd
  cases hd

end SmlnjLlvm.Asdl
