import SmlnjLlvm.Asdl.Sequence
import SmlnjLlvm.LambdaVar

/-!
# Truncated pickles

`getb` and `getc` test the stream before they read, so a pickle that lost only
its last byte is usually accepted, with 0xff in place of that byte. Each type
has a law for every cut of an encoding; what varies between the types is when
the loss of the last byte alone is reported.
-/

namespace SmlnjLlvm.Asdl

open ByteDecoder BigEndian LambdaVar

variable {bytes : Bytes} {i : Int} {ui : Nat}

theorem writeUint_ne_nil (h : writeUint ui = some bytes) : bytes ≠ [] := by
  obtain ⟨b0, rest, rfl, _⟩ := writeUint_spec h
  exact List.cons_ne_nil b0 rest

theorem writeInt_ne_nil (h : writeInt i = some bytes) : bytes ≠ [] := by
  obtain ⟨b0, rest, rfl, _⟩ := writeInt_spec h
  exact List.cons_ne_nil b0 rest

theorem readUint_cut (h : writeUint ui = some bytes) :
    Cut DecodeError.invalidIOState readUint bytes (ui < 64) EndsInEof := by
  obtain ⟨b0, rest, rfl, hlen, hval⟩ := writeUint_spec h
  have hone : rest = [] ↔ ui < 64 := by
    constructor
    · rintro rfl
      rw [← hval, beFrom, show (0x3f : UInt8) = UInt8.ofNat (2 ^ 6 - 1) from rfl,
        toNat_and_mask _ 6 (by decide)]
      exact Nat.mod_lt _ (by decide)
    · intro hsmall
      rw [writeUint, if_pos (by omega), Option.some.injEq] at h
      exact (List.cons.inj h).2.symm
  have heof : (eofByte >>> 6).toNat ≠ 0 := by decide
  have hcut : Cut DecodeError.invalidIOState readUint (b0 :: rest) (rest = [])
      (fun a => ∃ v, EndsInEof v ∧ a = v) := leadByte_cut hlen heof
  refine (hcut.mono ?_).congr hone
  rintro a ⟨v, hv, rfl⟩
  exact hv

theorem readInt_cut (h : writeInt i = some bytes) :
    Cut DecodeError.invalidIOState readInt bytes (-32 ≤ i ∧ i < 32) fun _ => True := by
  obtain ⟨b0, rest, rfl, hlen, _, hval⟩ := writeInt_spec h
  have hone : rest = [] ↔ -32 ≤ i ∧ i < 32 := by
    constructor
    · rintro rfl
      rw [beFrom, show (0x1f : UInt8) = UInt8.ofNat (2 ^ 5 - 1) from rfl,
        toNat_and_mask _ 5 (by decide)] at hval
      split at hval <;> omega
    · intro hsmall
      unfold writeInt at h
      rw [if_pos (by omega), if_pos (by split <;> omega), Option.some.injEq] at h
      exact (List.cons.inj h).2.symm
  have heof : (eofByte >>> 6).toNat ≠ 0 := by decide
  have hcut : Cut DecodeError.invalidIOState readInt (b0 :: rest) (rest = []) _ :=
    leadByte_cut hlen heof
  exact (hcut.mono fun _ _ => trivial).congr hone

theorem readUint_hungry : Hungry DecodeError.invalidIOState readUint := leadByte_hungry

theorem readInt_hungry : Hungry DecodeError.invalidIOState readInt := leadByte_hungry

theorem readTag8_hungry : Hungry DecodeError.invalidIOState readTag8 := getb_hungry.bind

theorem readSeq_hungry {read : Reader α} : Hungry DecodeError.invalidIOState (readSeq read) :=
  readUint_hungry.bind

/-- What the cut of a counted sequence needs to know about one element. -/
structure Element (read : Reader β) (decoded : α → β) (last : α → Prop) (bytes : Bytes)
    (v : α) : Prop where
  nonempty : bytes ≠ []
  decodes : Decodes read bytes (decoded v)
  cut : Cut DecodeError.invalidIOState read bytes (last v) fun _ => True

theorem readSeq_cut {write : α → Option Bytes} {read : Reader β} {decoded : α → β}
    {last : α → Prop} {seq : List α} (hlen : seq.length < 2 ^ 30)
    (hungry : Hungry DecodeError.invalidIOState read)
    (h : ∀ v ∈ seq, ∀ bytes, write v = some bytes → Element read decoded last bytes v)
    (hw : writeSeq write seq = some bytes) :
    Cut DecodeError.invalidIOState (readSeq read) bytes
      (∀ v ∈ seq.getLast?, last v) fun _ => True := by
  obtain ⟨len, elems, hl, he, rfl⟩ := writeSeq_parts hlen hw
  have hcount : ∀ a, EndsInEof a → Hungry DecodeError.invalidIOState (readMany read a) := by
    intro a ha
    refine hungry.many ?_
    rintro rfl
    simp [EndsInEof] at ha
  have hall := forall₂_of_mapM h he
  cases seq with
  | nil =>
    -- the count is zero, in a single byte
    simp only [List.mapM_nil, Option.pure_def, Option.some.injEq] at he
    subst he
    rw [List.flatten_nil, List.append_nil]
    exact ((readUint_cut hl).bind_hungry hcount).congr (by simp)
  | cons v seq =>
    cases hall with
    | cons hv hrest =>
      refine Cut.bind (readUint_decodes hl) (readUint_cut hl) hcount ?_ (by simp [hv.nonempty])
      refine Cut.many decoded last hungry (.cons ⟨hv.1, hv.2, hv.3⟩ ?_)
      exact hrest.imp fun _ _ hx => ⟨hx.1, hx.2, hx.3⟩

theorem writeSeq_ne_nil {write : α → Option Bytes} {seq : List α} (hlen : seq.length < 2 ^ 30)
    (hw : writeSeq write seq = some bytes) : bytes ≠ [] := by
  obtain ⟨len, elems, hl, _, rfl⟩ := writeSeq_parts hlen hw
  simp [writeUint_ne_nil hl]

/-- The loss of the last byte alone is noticed: the encoding, or its last element, is one byte. -/
def Ty.LastReported : (t : Ty) → t.Val → Prop
  | int, i => -32 ≤ i ∧ i < 32
  | uint, ui => ui < 64
  | string, s => s = []
  | smallEnumSeq, xs => xs = []
  | bigEnumSeq, xs => ∀ e ∈ xs.getLast?, e < 64
  | intSeq, xs => ∀ i ∈ xs.getLast?, -32 ≤ i ∧ i < 32
  | uintSeq, xs => ∀ ui ∈ xs.getLast?, ui < 64
  | seq elem, xs => ∀ v ∈ xs.getLast?, elem.LastReported v

theorem Ty.read_hungry (t : Ty) : Hungry DecodeError.invalidIOState t.read := by
  cases t with
  | int => exact readInt_hungry
  | uint => exact readUint_hungry
  | _ => exact readSeq_hungry

theorem uint_element (h : writeUint ui = some bytes) : Element readUint id (· < 64) bytes ui :=
  ⟨writeUint_ne_nil h, readUint_decodes h, (readUint_cut h).mono fun _ _ => trivial⟩

theorem int_element (h : writeInt i = some bytes) :
    Element readInt id (fun i => -32 ≤ i ∧ i < 32) bytes i :=
  ⟨writeInt_ne_nil h, readInt_decodes h, readInt_cut h⟩

theorem Ty.write_ne_nil (t : Ty) {v : t.Val} (h : t.InRange v) (hw : t.write v = some bytes) :
    bytes ≠ [] := by
  cases t with
  | int => exact writeInt_ne_nil hw
  | uint => exact writeUint_ne_nil hw
  | string =>
    rw [Ty.write, writeString_eq_writeSeq] at hw
    exact writeSeq_ne_nil h hw
  | _ => exact writeSeq_ne_nil h.1 hw

theorem getLast?_false {xs : List α} : (∀ v ∈ xs.getLast?, False) ↔ xs = [] := by
  cases xs with
  | nil => simp
  | cons v xs => simp [List.getLast?_cons]

theorem Ty.read_cut (t : Ty) {v : t.Val} (h : t.InRange v) (hw : t.write v = some bytes) :
    Cut DecodeError.invalidIOState t.read bytes (t.LastReported v) fun _ => True := by
  induction t generalizing bytes with
  | int => exact readInt_cut hw
  | uint => exact (readUint_cut hw).mono fun _ _ => trivial
  | string =>
    rw [Ty.write, writeString_eq_writeSeq] at hw
    have hchar : ∀ c ∈ v, ∀ bytes, some [c] = some bytes →
        Element getc id (fun _ => False) bytes c := by
      rintro c _ _ ⟨⟩
      exact ⟨List.cons_ne_nil c [], getb_decodes c, (getb_cut c).mono fun _ _ => trivial⟩
    exact (readSeq_cut h getb_hungry hchar hw).congr getLast?_false
  | smallEnumSeq =>
    have htag : ∀ e ∈ v, ∀ bytes, some (writeTag8 e) = some bytes →
        Element readTag8 id (fun _ => False) bytes e := by
      rintro e he _ ⟨⟩
      exact ⟨List.cons_ne_nil _ [], readTag8_decodes (h.2 e he), (getb_cut _).map _⟩
    exact (readSeq_cut h.1 readTag8_hungry htag hw).congr getLast?_false
  | bigEnumSeq => exact readSeq_cut h.1 readUint_hungry (fun _ _ _ => uint_element) hw
  | intSeq => exact readSeq_cut h.1 readInt_hungry (fun _ _ _ => int_element) hw
  | uintSeq => exact readSeq_cut h.1 readUint_hungry (fun _ _ _ => uint_element) hw
  | seq elem ih =>
    have hall : ∀ u ∈ v, ∀ bytes, elem.write u = some bytes →
        Element elem.read id elem.LastReported bytes u := fun u hu _ hwu =>
      ⟨elem.write_ne_nil (h.2 u hu) hwu, elem.read_decodes (h.2 u hu) hwu, ih (h.2 u hu) hwu⟩
    exact readSeq_cut h.1 elem.read_hungry hall hw

/-! ## Pickled types -/

/-- Base types, identifiers, multiprecision integers, and boxed types with several fields. -/
inductive Shape where
  | base (t : Ty)
  | lvar
  | integer
  | lvarSeq
  | seq (elem : Shape)
  | pair (fst snd : Shape)
  deriving DecidableEq, Repr

/-- The values written; a multiprecision integer is given by its bytes. -/
@[reducible] def Shape.Val : Shape → Type
  | base t => t.Val
  | lvar => Nat
  | integer => Bytes
  | lvarSeq => List Nat
  | seq elem => List elem.Val
  | pair fst snd => fst.Val × snd.Val

/-- The values read. -/
@[reducible] def Shape.Out : Shape → Type
  | base t => t.Val
  | lvar => Int
  | integer => Integer
  | lvarSeq => List Int
  | seq elem => List elem.Out
  | pair fst snd => fst.Out × snd.Out

def Shape.decoded : (s : Shape) → s.Val → s.Out
  | base _, v => v
  | lvar, id => castInt id
  | integer, bytes => .ofEncoding bytes
  | lvarSeq, ids => ids.map fun id => castInt id
  | seq elem, xs => xs.map elem.decoded
  | pair fst snd, v => (fst.decoded v.1, snd.decoded v.2)

def Shape.write : (s : Shape) → s.Val → Option Bytes
  | base t, v => t.write v
  | lvar, id => some (writeLvar id)
  | integer, bytes => some bytes
  | lvarSeq, ids => writeSeq (fun id => some (writeLvar id)) ids
  | seq elem, xs => writeSeq elem.write xs
  | pair fst snd, v => do
      let head ← fst.write v.1
      let rest ← snd.write v.2
      some (head ++ rest)

def Shape.read : (s : Shape) → Reader s.Out
  | base t => t.read
  | lvar => readLvar
  | integer => readInteger
  | lvarSeq => readLvarSeq
  | seq elem => readSeq elem.read
  | pair fst snd => do
      let v ← fst.read
      let w ← snd.read
      pure (v, w)

def LvarInRange (id : Nat) : Prop := id < 2 ^ 61

def Shape.InRange : (s : Shape) → s.Val → Prop
  | base t, v => t.InRange v
  | lvar, id => LvarInRange id
  | integer, bytes => IntegerEncoding bytes
  | lvarSeq, ids => SeqInRange LvarInRange ids
  | seq elem, xs => SeqInRange elem.InRange xs
  | pair fst snd, v => fst.InRange v.1 ∧ snd.InRange v.2

/-- The reader of `asdl::integer` looks for a continuation bit, which 0xff has. -/
def Shape.LastReported : (s : Shape) → s.Val → Prop
  | base t, v => t.LastReported v
  | lvar, id => id < 32
  | integer, _ => True
  | lvarSeq, ids => ∀ id ∈ ids.getLast?, id < 32
  | seq elem, xs => ∀ v ∈ xs.getLast?, elem.LastReported v
  | pair _ snd, v => snd.LastReported v.2

theorem Shape.read_hungry (s : Shape) : Hungry DecodeError.invalidIOState s.read := by
  induction s with
  | base t => exact t.read_hungry
  | lvar => exact readLvar_hungry
  | integer => exact readInteger_hungry
  | lvarSeq => exact readSeq_hungry
  | seq elem _ => exact readSeq_hungry
  | pair fst snd ih _ => exact ih.bind

theorem lvar_element {id : Nat} (h : id < 2 ^ 61) (hw : some (writeLvar id) = some bytes) :
    Element readLvar (fun id => castInt id) (· < 32) bytes id := by
  cases hw
  exact ⟨writeLvar_ne_nil h, readLvar_decodes h, readLvar_cut h⟩

theorem Shape.element (s : Shape) {v : s.Val} (h : s.InRange v) (hw : s.write v = some bytes) :
    Element s.read s.decoded s.LastReported bytes v := by
  induction s generalizing bytes with
  | base t => exact ⟨t.write_ne_nil h hw, t.read_decodes h hw, t.read_cut h hw⟩
  | lvar => exact lvar_element h hw
  | integer =>
    cases hw
    refine ⟨?_, readInteger_decodes h, readInteger_cut h⟩
    rintro rfl
    exact h
  | lvarSeq =>
    have hall : ∀ id ∈ v, ∀ bytes, some (writeLvar id) = some bytes →
        Element readLvar (fun id => castInt id) (· < 32) bytes id :=
      fun id hid _ => lvar_element (h.2 id hid)
    exact ⟨writeSeq_ne_nil h.1 hw, readSeq_decodes h.1 (fun id hid b hb => (hall id hid b hb).2) hw,
      readSeq_cut h.1 readLvar_hungry hall hw⟩
  | seq elem ih =>
    have hall : ∀ u ∈ v, ∀ bytes, elem.write u = some bytes →
        Element elem.read elem.decoded elem.LastReported bytes u :=
      fun u hu _ => ih (h.2 u hu)
    exact ⟨writeSeq_ne_nil h.1 hw, readSeq_decodes h.1 (fun u hu b hb => (hall u hu b hb).2) hw,
      readSeq_cut h.1 elem.read_hungry hall hw⟩
  | pair fst snd ihf ihs =>
    rw [Shape.write] at hw
    cases hf : fst.write v.1 with
    | none => simp [hf] at hw
    | some head =>
      cases hs : snd.write v.2 with
      | none => simp [hf, hs] at hw
      | some rest =>
        simp only [hf, hs, Option.bind_eq_bind, Option.bind_some, Option.some.injEq] at hw
        subst hw
        obtain ⟨hne, hd, hcut⟩ := ihf h.1 hf
        obtain ⟨hne', hd', hcut'⟩ := ihs h.2 hs
        refine ⟨by simp [hne], hd.bind (hd'.map _), ?_⟩
        exact Cut.bind hd hcut (fun _ _ => snd.read_hungry.bind) (hcut'.map _) hne'

/--
A proper prefix of a pickle is rejected exactly when two bytes are missing, or
the value is one whose last byte cannot be taken for the end of input.
-/
theorem truncated_iff (s : Shape) {v : s.Val} {bytes pre suf : Bytes} (h : s.InRange v)
    (hw : s.write v = some bytes) (hb : bytes = pre ++ suf) (hs : suf ≠ []) :
    s.read (.start pre) = .error .invalidIOState ↔ 2 ≤ suf.length ∨ s.LastReported v :=
  (s.element h hw).cut.error_iff hb hs

theorem truncated_iff_uint : Shape.read (.base .uint) (.start []) = .error .invalidIOState ↔
    2 ≤ [putb 5].length ∨ Shape.LastReported (.base .uint) 5 :=
  truncated_iff (.base .uint) (show 5 < 2 ^ 30 by decide) (show writeUint 5 = some [putb 5] from rfl)
    (show [putb 5] = [] ++ [putb 5] from rfl) (List.cons_ne_nil _ _)

/-- The encoding of 300 without its last byte is read as 511. -/
theorem truncated_uint_accepted :
    Shape.write (.base .uint) 300 = some ([0x41] ++ [0x2c]) ∧
      Shape.read (.base .uint) (.start [0x41]) = .ok ((511 : Nat), .dead) :=
  ⟨rfl, rfl⟩

end SmlnjLlvm.Asdl
