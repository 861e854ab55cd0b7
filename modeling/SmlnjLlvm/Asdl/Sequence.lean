import SmlnjLlvm.Asdl.Base

/-!
# Sequence codecs

Every sequence is a count followed by its elements, and a string is a sequence
of characters. The count is a `size_t` that `write_uint` takes as an
`unsigned int`.
-/

namespace SmlnjLlvm.Asdl

open ByteDecoder BigEndian

/-- `write_uint (os, seq.size())`, then `write` for each element. -/
def writeSeq (write : α → Option Bytes) (seq : List α) : Option Bytes := do
  let len ← writeUint (seq.length % 2 ^ 32)
  let elems ← seq.mapM write
  some (len ++ elems.flatten)

/-- An enumerator is its number. -/
def writeSmallEnumSeq (seq : List Nat) : Option Bytes :=
  writeSeq (fun e => some (writeTag8 e)) seq

def writeBigEnumSeq (seq : List Nat) : Option Bytes := writeSeq writeUint seq

def readSeq (read : Reader α) : Reader (List α) := do
  let len ← readUint
  readMany read len

def readSmallEnumSeq : Reader (List Nat) := readSeq readTag8

def readBigEnumSeq : Reader (List Nat) := readSeq readUint

def readIntSeq : Reader (List Int) := readSeq readInt

def readUintSeq : Reader (List Nat) := readSeq readUint

theorem writeString_eq_writeSeq (s : Bytes) :
    writeString s = writeSeq (fun c => some [c]) s := by
  have hchars : s.mapM (fun c => some [c]) = some (s.map fun c => [c]) := by
    induction s with
    | nil => rfl
    | cons c s ih => simp [List.mapM_cons, ih]
  rw [writeSeq, hchars]
  simp only [Option.bind_eq_bind, Option.bind_some]
  rw [← List.flatMap_def, List.flatMap_singleton']
  rfl

theorem forall₂_of_mapM {write : α → Option Bytes} {R : Bytes → α → Prop} {seq : List α}
    {elems : List Bytes} (h : ∀ v ∈ seq, ∀ bytes, write v = some bytes → R bytes v)
    (hw : seq.mapM write = some elems) : List.Forall₂ R elems seq := by
  induction seq generalizing elems with
  | nil =>
    simp only [List.mapM_nil, Option.pure_def, Option.some.injEq] at hw
    subst hw
    exact .nil
  | cons v seq ih =>
    rw [List.mapM_cons] at hw
    cases hv : write v with
    | none => simp [hv] at hw
    | some bytes =>
      cases hs : seq.mapM write with
      | none => simp [hv, hs] at hw
      | some rest =>
        simp only [hv, hs, Option.bind_eq_bind, Option.bind_some, Option.pure_def,
          Option.some.injEq] at hw
        subst hw
        exact .cons (h v List.mem_cons_self bytes hv)
          (ih (fun u hu => h u (List.mem_cons_of_mem _ hu)) hs)

theorem writeSeq_parts {write : α → Option Bytes} {seq : List α} {bytes : Bytes}
    (hlen : seq.length < 2 ^ 30) (h : writeSeq write seq = some bytes) :
    ∃ len elems, writeUint seq.length = some len ∧ seq.mapM write = some elems ∧
      bytes = len ++ elems.flatten := by
  rw [writeSeq, Nat.mod_eq_of_lt (by omega)] at h
  cases hc : writeUint seq.length with
  | none => simp [hc] at h
  | some len =>
    cases he : seq.mapM write with
    | none => simp [hc, he] at h
    | some elems =>
      simp only [hc, he, Option.bind_eq_bind, Option.bind_some, Option.some.injEq] at h
      exact ⟨len, elems, rfl, rfl, h.symm⟩

theorem readSeq_decodes {write : α → Option Bytes} {read : Reader β} {decoded : α → β}
    {seq : List α} {bytes : Bytes} (hlen : seq.length < 2 ^ 30)
    (h : ∀ v ∈ seq, ∀ bytes, write v = some bytes → Decodes read bytes (decoded v))
    (hw : writeSeq write seq = some bytes) :
    Decodes (readSeq read) bytes (seq.map decoded) := by
  obtain ⟨len, elems, hl, he, rfl⟩ := writeSeq_parts hlen hw
  exact (readUint_decodes hl).bind (Decodes.many decoded (forall₂_of_mapM h he))

theorem writeUint_some {ui : Nat} (h : ui < 2 ^ 30) : ∃ bytes, writeUint ui = some bytes := by
  obtain ⟨bytes, hw, _⟩ := writeUint_shortest h
  exact ⟨bytes, hw⟩

theorem mapM_some {write : α → Option Bytes} {seq : List α}
    (h : ∀ v ∈ seq, ∃ bytes, write v = some bytes) : ∃ elems, seq.mapM write = some elems := by
  induction seq with
  | nil => exact ⟨[], rfl⟩
  | cons v seq ih =>
    obtain ⟨bytes, hv⟩ := h v List.mem_cons_self
    obtain ⟨elems, hs⟩ := ih fun u hu => h u (List.mem_cons_of_mem _ hu)
    exact ⟨bytes :: elems, by simp [List.mapM_cons, hv, hs]⟩

theorem writeSeq_some {write : α → Option Bytes} {seq : List α} (hlen : seq.length < 2 ^ 30)
    (h : ∀ v ∈ seq, ∃ bytes, write v = some bytes) : ∃ bytes, writeSeq write seq = some bytes := by
  obtain ⟨len, hl⟩ := writeUint_some hlen
  obtain ⟨elems, he⟩ := mapM_some h
  rw [writeSeq, Nat.mod_eq_of_lt (by omega)]
  exact ⟨len ++ elems.flatten, by simp [hl, he]⟩

/-- The base types and their sequences; `seq` is `write_seq` and `read_seq` at a boxed type. -/
inductive Ty where
  | int
  | uint
  | string
  | smallEnumSeq
  | bigEnumSeq
  | intSeq
  | uintSeq
  | seq (elem : Ty)
  deriving DecidableEq, Repr

@[reducible] def Ty.Val : Ty → Type
  | int => Int
  | uint => Nat
  | string => Bytes
  | smallEnumSeq => List Nat
  | bigEnumSeq => List Nat
  | intSeq => List Int
  | uintSeq => List Nat
  | seq elem => List elem.Val

/-- `write_int_seq` and `write_uint_seq` do not exist; these sequences are written by `write_seq`. -/
def Ty.write : (t : Ty) → t.Val → Option Bytes
  | int, i => writeInt i
  | uint, ui => writeUint ui
  | string, s => writeString s
  | smallEnumSeq, xs => writeSmallEnumSeq xs
  | bigEnumSeq, xs => writeBigEnumSeq xs
  | intSeq, xs => writeSeq writeInt xs
  | uintSeq, xs => writeSeq writeUint xs
  | seq elem, xs => writeSeq elem.write xs

def Ty.read : (t : Ty) → Reader t.Val
  | int => readInt
  | uint => readUint
  | string => readString
  | smallEnumSeq => readSmallEnumSeq
  | bigEnumSeq => readBigEnumSeq
  | intSeq => readIntSeq
  | uintSeq => readUintSeq
  | seq elem => readSeq elem.read

def IntInRange (i : Int) : Prop := -2 ^ 29 ≤ i ∧ i < 2 ^ 29

def UintInRange (ui : Nat) : Prop := ui < 2 ^ 30

/-- The count of a sequence is itself an unsigned integer in range. -/
def SeqInRange (P : α → Prop) (xs : List α) : Prop := UintInRange xs.length ∧ ∀ v ∈ xs, P v

def Ty.InRange : (t : Ty) → t.Val → Prop
  | int, i => IntInRange i
  | uint, ui => UintInRange ui
  | string, s => UintInRange s.length
  | smallEnumSeq, xs => SeqInRange (· < 256) xs
  | bigEnumSeq, xs => SeqInRange UintInRange xs
  | intSeq, xs => SeqInRange IntInRange xs
  | uintSeq, xs => SeqInRange UintInRange xs
  | seq elem, xs => SeqInRange elem.InRange xs

theorem writeInt_some {i : Int} (h : IntInRange i) : ∃ bytes, writeInt i = some bytes := by
  obtain ⟨bytes, hw, _⟩ := writeInt_shortest h.1 h.2
  exact ⟨bytes, hw⟩

theorem Ty.write_some (t : Ty) {v : t.Val} (h : t.InRange v) : ∃ bytes, t.write v = some bytes := by
  induction t with
  | int => exact writeInt_some h
  | uint => exact writeUint_some h
  | string =>
    rw [Ty.write, writeString_eq_writeSeq]
    exact writeSeq_some h fun c _ => ⟨[c], rfl⟩
  | smallEnumSeq => exact writeSeq_some h.1 fun e _ => ⟨writeTag8 e, rfl⟩
  | bigEnumSeq => exact writeSeq_some h.1 fun e he => writeUint_some (h.2 e he)
  | intSeq => exact writeSeq_some h.1 fun i hi => writeInt_some (h.2 i hi)
  | uintSeq => exact writeSeq_some h.1 fun ui hi => writeUint_some (h.2 ui hi)
  | seq elem ih => exact writeSeq_some h.1 fun v hv => ih (h.2 v hv)

theorem Ty.read_decodes (t : Ty) {v : t.Val} {bytes : Bytes} (h : t.InRange v)
    (hw : t.write v = some bytes) : Decodes t.read bytes v := by
  induction t generalizing bytes with
  | int => exact readInt_decodes hw
  | uint => exact readUint_decodes hw
  | string => exact readString_decodes (Nat.lt_trans h (by decide)) hw
  | smallEnumSeq =>
    have htag : ∀ e ∈ v, ∀ bytes, some (writeTag8 e) = some bytes →
        Decodes readTag8 bytes (id e) := by
      rintro e he _ ⟨⟩
      exact readTag8_decodes (h.2 e he)
    have hd := readSeq_decodes h.1 htag hw
    rwa [List.map_id] at hd
  | bigEnumSeq =>
    have hd := readSeq_decodes h.1 (fun ui _ _ (hui : writeUint ui = _) =>
      (readUint_decodes hui : Decodes readUint _ (id ui))) hw
    rwa [List.map_id] at hd
  | intSeq =>
    have hd := readSeq_decodes h.1 (fun i _ _ (hi : writeInt i = _) =>
      (readInt_decodes hi : Decodes readInt _ (id i))) hw
    rwa [List.map_id] at hd
  | uintSeq =>
    have hd := readSeq_decodes h.1 (fun ui _ _ (hui : writeUint ui = _) =>
      (readUint_decodes hui : Decodes readUint _ (id ui))) hw
    rwa [List.map_id] at hd
  | seq elem ih =>
    have hd := readSeq_decodes h.1 (fun u hu _ (hwu : elem.write u = _) =>
      (ih (h.2 u hu) hwu : Decodes elem.read _ (id u))) hw
    rwa [List.map_id] at hd

/-- One write: a type and a value of it. -/
abbrev Field := (t : Ty) × t.Val

def writeFields : List Field → Option Bytes
  | [] => some []
  | f :: fields => do
      let bytes ← f.1.write f.2
      let rest ← writeFields fields
      some (bytes ++ rest)

def readFields : List Ty → Reader (List Field)
  | [] => pure []
  | t :: ts => do
      let v ← t.read
      let fields ← readFields ts
      pure (⟨t, v⟩ :: fields)

theorem writeFields_some {fields : List Field} (h : ∀ f ∈ fields, f.1.InRange f.2) :
    ∃ bytes, writeFields fields = some bytes := by
  induction fields with
  | nil => exact ⟨[], rfl⟩
  | cons f fields ih =>
    obtain ⟨bytes, hf⟩ := f.1.write_some (h f List.mem_cons_self)
    obtain ⟨rest, hrest⟩ := ih fun g hg => h g (List.mem_cons_of_mem _ hg)
    exact ⟨bytes ++ rest, by simp [writeFields, hf, hrest]⟩

theorem readFields_decodes {fields : List Field} {bytes : Bytes}
    (h : ∀ f ∈ fields, f.1.InRange f.2) (hw : writeFields fields = some bytes) :
    Decodes (readFields (fields.map Sigma.fst)) bytes fields := by
  induction fields generalizing bytes with
  | nil =>
    cases hw
    exact Decodes.pure []
  | cons f fields ih =>
    rw [writeFields] at hw
    cases hf : f.1.write f.2 with
    | none => simp [hf] at hw
    | some head =>
      cases hr : writeFields fields with
      | none => simp [hf, hr] at hw
      | some rest =>
        simp only [hf, hr, Option.bind_eq_bind, Option.bind_some, Option.some.injEq] at hw
        subst hw
        have hhead := f.1.read_decodes (h f List.mem_cons_self) hf
        have hrest := ih (fun g hg => h g (List.mem_cons_of_mem _ hg)) hr
        exact hhead.bind (hrest.map _)

/--
Any run of writes is read back by the same run of reads, which leaves no byte,
and no encoding continues another one; every integer takes the fewest bytes.
-/
theorem base_codecs_roundTrip :
    (∀ fields : List Field, (∀ f ∈ fields, f.1.InRange f.2) →
      ∃ bytes, writeFields fields = some bytes ∧
        readFields (fields.map Sigma.fst) (.start bytes) = .ok (fields, .start []) ∧
        ∀ others tail, (∀ f ∈ others, f.1.InRange f.2) →
          others.map Sigma.fst = fields.map Sigma.fst →
          writeFields others = some (bytes ++ tail) → tail = [] ∧ others = fields) ∧
    (∀ i, IntInRange i → ∃ bytes, writeInt i = some bytes ∧
      1 ≤ bytes.length ∧ bytes.length ≤ 4 ∧ ∀ len, 1 ≤ len → len ≤ 4 →
        (-2 ^ (8 * len - 3) ≤ i ∧ i < 2 ^ (8 * len - 3) ↔ bytes.length ≤ len)) ∧
    (∀ ui, UintInRange ui → ∃ bytes, writeUint ui = some bytes ∧
      1 ≤ bytes.length ∧ bytes.length ≤ 4 ∧ ∀ len, 1 ≤ len → len ≤ 4 →
        (ui < 2 ^ (8 * len - 2) ↔ bytes.length ≤ len)) := by
  refine ⟨fun fields h => ?_, fun i hi => writeInt_shortest hi.1 hi.2,
    fun ui hui => writeUint_shortest hui⟩
  obtain ⟨bytes, hw⟩ := writeFields_some h
  have hd := readFields_decodes h hw
  refine ⟨bytes, hw, ?_, fun others tail ho hty hwo => ?_⟩
  · have hread := hd []
    rwa [List.append_nil] at hread
  · have hdo := readFields_decodes ho hwo
    rw [hty] at hdo
    obtain ⟨htail, heq⟩ := hd.prefix_free hdo rfl
    exact ⟨htail, heq.symm⟩

theorem base_codecs_roundTrip_nested :
    ∃ bytes, writeFields [⟨.int, -33⟩, ⟨.seq .intSeq, [[5, -300], []]⟩] = some bytes ∧
      readFields [.int, .seq .intSeq] (.start bytes) =
        .ok ([⟨.int, -33⟩, ⟨.seq .intSeq, [[5, -300], []]⟩], .start []) := by
  have hr : ∀ f ∈ [(⟨.int, -33⟩ : Field), ⟨.seq .intSeq, [[5, -300], []]⟩], f.1.InRange f.2 := by
    simp [Ty.InRange, SeqInRange, UintInRange, IntInRange]
  obtain ⟨bytes, hw, hread, _⟩ := base_codecs_roundTrip.1 _ hr
  exact ⟨bytes, hw, hread⟩

end SmlnjLlvm.Asdl
