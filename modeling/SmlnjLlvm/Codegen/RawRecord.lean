import SmlnjLlvm.Codegen.Target
import SmlnjLlvm.Library.Alignment

/-!
# Allocation of raw records

The code that RAW_RECORD generates is read as address arithmetic: a list of
stores, the object's address and the new allocation pointer. Offsets are `int`
values, and a signed overflow has no result.
-/

namespace SmlnjLlvm.Codegen

open Alignment

/-- A field of a raw record; the size is in bits. -/
structure RawTy where
  kind : NumKind
  sz : Nat
  deriving DecidableEq, Repr

/-- An argument value and its LLVM type. -/
structure RawArg (α : Type) where
  value : α
  ty : LlvmTy

/-- What a store writes. -/
inductive Content (α : Type) where
  | desc (word : Nat)
  | arg (value : α)
  deriving DecidableEq, Repr

structure Store (α : Type) where
  addr : Int
  content : Content α
  align : Nat
  deriving DecidableEq, Repr

/-- The effect of an allocation: its stores, its object and the new ALLOC_PTR. -/
structure Allocation (α : Type) where
  stores : List (Store α)
  obj : Int
  allocPtr : Int
  deriving DecidableEq, Repr

def LlvmTy.primitiveSizeInBits : LlvmTy → Nat
  | i8 => 8
  | i16 => 16
  | i32 => 32
  | i64 => 64
  | f32 => 32
  | f64 => 64
  | ptr => 0

abbrev CInt := BitVec 32

def CInt.add (a b : CInt) : Option CInt := if a.saddOverflow b then none else some (a + b)

def bitsToBytes (n : Nat) : Nat := n >>> 3

def RawTy.szb (fld : RawTy) : CInt := BitVec.ofNat 32 (bitsToBytes fld.sz)

def RawTy.bytes (fld : RawTy) : Nat := bitsToBytes fld.sz

section RawRecord

variable {α : Type} (target : TargetInfo)

def createGEP (base : Int) (idx : CInt) : Int := base + target.wordSzB * idx.toInt

def createGEPi8 (base : Int) (idx : CInt) : Int := base + idx.toInt

def alignOffset (offset szb : CInt) : Option CInt :=
  (CInt.add offset (szb - 1)).map fun sum => sum &&& ~~~(szb - 1)

def fieldOffset (offset szb : CInt) : Option CInt :=
  if offset &&& (szb - 1) ≠ 0 then alignOffset offset szb else some offset

/-- The store of one field, and its alignment as `createStoreML` or `createStore` sets it. -/
def storeField (fld : RawTy) (arg : RawArg α) (adr : Int) : Option (Store α) :=
  let elemTy := numType fld.kind fld.sz
  if arg.ty = mlValueTy then
    if elemTy.primitiveSizeInBits = target.intTy.primitiveSizeInBits then
      some ⟨adr, .arg arg.value, target.wordSzB⟩
    else none
  else if arg.ty = elemTy then some ⟨adr, .arg arg.value, fld.bytes⟩
  else none

def storeFields (obj : Int) : List RawTy → List (RawArg α) → CInt → Option (List (Store α) × CInt)
  | fld :: flds, arg :: args, offset => do
      let szb := fld.szb
      let offset ← fieldOffset offset szb
      let store ← storeField target fld arg (createGEPi8 obj offset)
      let next ← CInt.add offset szb
      let (stores, final) ← storeFields obj flds args next
      some (store :: stores, final)
  | [], [], offset => some ([], offset)
  | _, _, _ => none

def RawRecord.codegen (desc : Nat) (fields : List RawTy) (allocPtr : Int)
    (args : List (RawArg α)) : Option (Allocation α) := do
  let descStore := ⟨allocPtr, .desc desc, target.wordSzB⟩
  let obj := createGEP target allocPtr 1
  let (stores, offset) ← storeFields target obj fields args 0
  let offset ← alignOffset offset (BitVec.ofNat 32 target.wordSzB)
  some ⟨descStore :: stores, obj, createGEP target obj offset⟩

def lastEnd (fields : List RawTy) (offs : List Nat) : Nat :=
  (offs.zip fields).getLast?.elim 0 fun x => x.1 + x.2.bytes

/-- Every field is stored at an offset that its size divides, and no two fields overlap. -/
structure Placed (obj : Int) (fields : List RawTy) (args : List (RawArg α))
    (stores : List (Store α)) (offs : List Nat) : Prop where
  length : offs.length = fields.length
  stored : stores.map (fun s => (s.addr, s.content)) =
    List.zipWith (fun (off : Nat) (a : RawArg α) => (obj + off, Content.arg a.value)) offs args
  aligned : ∀ x ∈ offs.zip fields, x.2.bytes ∣ x.1
  disjoint : (offs.zip fields).Pairwise fun x y =>
    x.1 + x.2.bytes ≤ y.1 ∨ y.1 + y.2.bytes ≤ x.1

/-- Descriptor, object and fields, for an allocation that moved ALLOC_PTR by `bump` of the end. -/
def HeapLayout (desc : Nat) (fields : List RawTy) (p : Int) (args : List (RawArg α))
    (code : Allocation α) (bump : Nat → Int) : Prop :=
  code.obj = p + target.wordSzB ∧
    ∃ stores offs, code.stores = ⟨p, .desc desc, target.wordSzB⟩ :: stores ∧
      Placed code.obj fields args stores offs ∧
      code.allocPtr = code.obj + bump (roundUp (lastEnd fields offs) target.wordSzB)

def PowerOfTwoSizes (fields : List RawTy) : Prop := ∀ fld ∈ fields, ∃ k < 29, fld.bytes = 2 ^ k

/-! ## Offsets as naturals -/

theorem CInt.add_spec {a b c : CInt} (ha : a.toNat < 2 ^ 31) (hb : b.toNat < 2 ^ 31)
    (h : CInt.add a b = some c) : c.toNat = a.toNat + b.toNat ∧ c.toNat < 2 ^ 31 := by
  have haInt := BitVec.toInt_eq_toNat_cond a
  have hbInt := BitVec.toInt_eq_toNat_cond b
  rw [CInt.add] at h
  split at h
  · cases h
  · rename_i hov
    rw [Option.some.injEq] at h
    rw [BitVec.saddOverflow] at hov
    simp only [Bool.or_eq_true, decide_eq_true_eq, not_or] at hov
    rw [← h, BitVec.toNat_add]
    omega

theorem toInt_of_lt {a : CInt} (ha : a.toNat < 2 ^ 31) : a.toInt = a.toNat := by
  rw [BitVec.toInt_eq_toNat_cond]
  omega

theorem alignOffset_spec {offset aligned : CInt} {k : Nat} (hk : k < 29)
    (ho : offset.toNat < 2 ^ 31)
    (h : alignOffset offset (BitVec.ofNat 32 (2 ^ k)) = some aligned) :
    aligned.toNat = roundUp offset.toNat (2 ^ k) ∧ aligned.toNat < 2 ^ 31 := by
  have hmask : (BitVec.ofNat 32 (2 ^ k) - 1).toNat = 2 ^ k - 1 := toNat_twoPow_sub_one (by omega)
  have hpow : 2 ^ k ≤ 2 ^ 28 := Nat.pow_le_pow_right (by decide) (by omega)
  rw [alignOffset, Option.map_eq_some_iff] at h
  obtain ⟨sum, hsum, rfl⟩ := h
  obtain ⟨hval, hlt⟩ := CInt.add_spec ho (by rw [hmask]; omega) hsum
  rw [toNat_and_not_low sum (by omega), hval, hmask]
  refine ⟨rfl, ?_⟩
  have hle := Nat.div_mul_le_self (offset.toNat + (2 ^ k - 1)) (2 ^ k)
  omega

theorem fieldOffset_spec {offset aligned : CInt} {k : Nat} (hk : k < 29)
    (ho : offset.toNat < 2 ^ 31)
    (h : fieldOffset offset (BitVec.ofNat 32 (2 ^ k)) = some aligned) :
    aligned.toNat = roundUp offset.toNat (2 ^ k) ∧ aligned.toNat < 2 ^ 31 := by
  rw [fieldOffset] at h
  split at h
  · exact alignOffset_spec hk ho h
  · rename_i hlow
    rw [ne_eq, not_not, ← BitVec.toNat_inj, toNat_and_low offset (by omega)] at hlow
    rw [Option.some.injEq] at h
    subst h
    exact ⟨(roundUp_of_dvd (Nat.two_pow_pos k) (Nat.dvd_of_mod_eq_zero hlow)).symm, ho⟩

theorem storeField_addr {fld : RawTy} {arg : RawArg α} {adr : Int} {store : Store α}
    (h : storeField target fld arg adr = some store) :
    store.addr = adr ∧ store.content = .arg arg.value := by
  unfold storeField at h
  dsimp only at h
  split_ifs at h <;> rw [Option.some.injEq] at h <;> subst h <;> exact ⟨rfl, rfl⟩

theorem storeFields_spec {obj : Int} {fields : List RawTy} {args : List (RawArg α)}
    {offset final : CInt} {stores : List (Store α)} (hsz : PowerOfTwoSizes fields)
    (ho : offset.toNat < 2 ^ 31)
    (h : storeFields target obj fields args offset = some (stores, final)) :
    ∃ offs, Placed obj fields args stores offs ∧ (∀ off ∈ offs, offset.toNat ≤ off) ∧
      final.toNat < 2 ^ 31 ∧
      final.toNat = (offs.zip fields).getLast?.elim offset.toNat fun x => x.1 + x.2.bytes := by
  induction fields generalizing args offset stores with
  | nil =>
    cases args with
    | nil =>
      obtain ⟨rfl, rfl⟩ := h
      exact ⟨[], ⟨rfl, rfl, by simp, by simp⟩, by simp, ho, rfl⟩
    | cons arg args => simp [storeFields] at h
  | cons fld fields ih =>
    cases args with
    | nil => simp [storeFields] at h
    | cons arg args =>
      obtain ⟨k, hk, hbytes⟩ := hsz fld List.mem_cons_self
      have hszb : fld.szb = BitVec.ofNat 32 (2 ^ k) := by
        rw [RawTy.szb, ← hbytes]
        rfl
      simp only [storeFields, Option.bind_eq_bind, Option.bind_eq_some_iff,
        Option.some.injEq, Prod.mk.injEq, Prod.exists] at h
      obtain ⟨aligned, haligned, store, hstore, next, hnext, rest, last, hrest, rfl, rfl⟩ := h
      rw [hszb] at haligned hnext
      obtain ⟨hoff, hofflt⟩ := fieldOffset_spec hk ho haligned
      have hpow : 2 ^ k ≤ 2 ^ 28 := Nat.pow_le_pow_right (by decide) (by omega)
      have hsize : (BitVec.ofNat 32 (2 ^ k)).toNat = 2 ^ k := by
        rw [BitVec.toNat_ofNat, Nat.mod_eq_of_lt (by omega)]
      obtain ⟨hval, hnextlt⟩ := CInt.add_spec hofflt (by rw [hsize]; omega) hnext
      rw [hsize] at hval
      obtain ⟨offs, hplaced, hbound, hfinlt, hfin⟩ :=
        ih (fun f hf => hsz f (List.mem_cons_of_mem _ hf)) hnextlt hrest
      have hround := le_roundUp offset.toNat (Nat.two_pow_pos k)
      refine ⟨aligned.toNat :: offs, ⟨?_, ?_, ?_, ?_⟩, ?_, hfinlt, ?_⟩
      · rw [List.length_cons, List.length_cons, hplaced.length]
      · have haddr := storeField_addr target hstore
        rw [List.map_cons, List.zipWith_cons_cons, hplaced.stored, haddr.1, haddr.2,
          createGEPi8, toInt_of_lt hofflt]
      · intro x hx
        rw [List.zip_cons_cons, List.mem_cons] at hx
        rcases hx with rfl | hx
        · rw [hoff, hbytes]
          exact dvd_roundUp _ _
        · exact hplaced.aligned x hx
      · rw [List.zip_cons_cons, List.pairwise_cons]
        refine ⟨fun x hx => Or.inl ?_, hplaced.disjoint⟩
        -- later fields start at or after the end of this one
        rw [hbytes, ← hval]
        exact hbound x.1 (List.of_mem_zip hx).1
      · intro off hmem
        rcases List.mem_cons.mp hmem with rfl | hmem
        · omega
        · have := hbound off hmem
          omega
      · rw [hfin, List.zip_cons_cons, List.getLast?_cons]
        cases (offs.zip fields).getLast? with
        | none => simp [hval, hbytes]
        | some x => rfl

theorem wordSzB_eq : ∃ k < 29, target.wordSzB = 2 ^ k := by
  rw [TargetInfo.wordSzB]
  split
  · exact ⟨2, by decide, rfl⟩
  · exact ⟨3, by decide, rfl⟩

theorem rawRecord_layout {desc : Nat} {fields : List RawTy} {p : Int} {args : List (RawArg α)}
    {code : Allocation α} (hsz : PowerOfTwoSizes fields)
    (h : RawRecord.codegen target desc fields p args = some code) :
    HeapLayout target desc fields p args code fun n => target.wordSzB * n := by
  obtain ⟨k, hk, hword⟩ := wordSzB_eq target
  simp only [RawRecord.codegen, Option.bind_eq_bind, Option.bind_eq_some_iff,
    Option.some.injEq, Prod.exists] at h
  obtain ⟨stores, final, hstores, offset, hoffset, rfl⟩ := h
  obtain ⟨offs, hplaced, _, hfinlt, hfin⟩ := storeFields_spec target hsz (by decide) hstores
  rw [hword] at hoffset
  obtain ⟨hround, hlt⟩ := alignOffset_spec hk hfinlt hoffset
  refine ⟨by simp [createGEP], stores, offs, rfl, hplaced, ?_⟩
  have hend : final.toNat = lastEnd fields offs := hfin
  dsimp only
  rw [createGEP, toInt_of_lt hlt, hround, hend, hword]

theorem zipWith_offsets_inj {obj : Int} {args : List (RawArg α)} {offs offs' : List Nat}
    (hlen : offs.length = args.length) (hlen' : offs'.length = args.length)
    (h : List.zipWith (fun (off : Nat) (a : RawArg α) => (obj + off, Content.arg a.value)) offs args =
      List.zipWith (fun (off : Nat) (a : RawArg α) => (obj + off, Content.arg a.value)) offs' args) :
    offs = offs' := by
  induction args generalizing offs offs' with
  | nil =>
    rw [List.eq_nil_of_length_eq_zero hlen, List.eq_nil_of_length_eq_zero hlen']
  | cons arg args ih =>
    obtain ⟨off, offs, rfl⟩ := List.exists_cons_of_length_eq_add_one hlen
    obtain ⟨off', offs', rfl⟩ := List.exists_cons_of_length_eq_add_one hlen'
    simp only [List.zipWith_cons_cons, List.cons.injEq, Prod.mk.injEq, and_true] at h
    rw [ih (Nat.succ.inj hlen) (Nat.succ.inj hlen') h.2]
    congr 1
    omega

theorem lastEnd_pos {fields : List RawTy} {offs : List Nat} (hsz : PowerOfTwoSizes fields)
    (hlen : offs.length = fields.length) (hne : fields ≠ []) : 0 < lastEnd fields offs := by
  have hzip : offs.zip fields ≠ [] := by
    intro h
    have hl := congrArg List.length h
    rw [List.length_zip, hlen, Nat.min_self] at hl
    exact hne (List.eq_nil_of_length_eq_zero hl)
  rw [lastEnd, List.getLast?_eq_some_getLast hzip]
  obtain ⟨k, _, hk⟩ := hsz _ (List.of_mem_zip (List.getLast_mem hzip)).2
  have hpos := Nat.two_pow_pos k
  simp only [Option.elim_some]
  omega

theorem not_heapLayout {desc : Nat} {fields : List RawTy} {p : Int} {args : List (RawArg α)}
    {code : Allocation α} (hsz : PowerOfTwoSizes fields) (hlen : args.length = fields.length)
    (h : RawRecord.codegen target desc fields p args = some code) (hne : fields ≠ []) :
    ¬ HeapLayout target desc fields p args code fun n => n := by
  rintro ⟨_, stores', offs', hstores', hplaced', hptr'⟩
  obtain ⟨_, stores, offs, hstores, hplaced, hptr⟩ := rawRecord_layout target hsz h
  rw [hstores, List.cons.injEq] at hstores'
  obtain ⟨-, rfl⟩ := hstores'
  have hoffs : offs = offs' :=
    zipWith_offsets_inj (hplaced.length.trans hlen.symm) (hplaced'.length.trans hlen.symm)
      (hplaced.stored.symm.trans hplaced'.stored)
  subst hoffs
  have hpos := lastEnd_pos hsz hplaced.length hne
  obtain ⟨k, _, hword⟩ := wordSzB_eq target
  have hround := le_roundUp (lastEnd fields offs) (hword ▸ Nat.two_pow_pos k)
  -- the two ends differ by the factor of a word
  have hscale : (target.wordSzB : Int) = 4 ∨ (target.wordSzB : Int) = 8 := by
    rw [TargetInfo.wordSzB]
    split <;> simp
  rw [hptr] at hptr'
  dsimp only at hptr'
  generalize (roundUp (lastEnd fields offs) target.wordSzB : Nat) = n at *
  rcases hscale with hw | hw <;> rw [hw] at hptr' <;> omega

/--
The stores are always right; the object consumes exactly the bytes it occupies
only when it has no field.
-/
theorem rawRecord_layout_iff (desc : Nat) {fields : List RawTy} (p : Int)
    {args : List (RawArg α)} (hsz : PowerOfTwoSizes fields) (hlen : args.length = fields.length) :
    (∀ code, RawRecord.codegen target desc fields p args = some code →
      HeapLayout target desc fields p args code fun n => target.wordSzB * n) ∧
    ((∃ code, RawRecord.codegen target desc fields p args = some code ∧
      HeapLayout target desc fields p args code fun n => n) ↔ fields = []) := by
  refine ⟨fun code h => rawRecord_layout target hsz h, ?_, ?_⟩
  · rintro ⟨code, hcode, hlayout⟩
    by_contra hne
    exact not_heapLayout target hsz hlen hcode hne hlayout
  · rintro rfl
    obtain rfl : args = [] := List.eq_nil_of_length_eq_zero hlen
    have hcode : ∃ code, RawRecord.codegen target desc [] p ([] : List (RawArg α)) = some code := by
      rw [RawRecord.codegen, TargetInfo.wordSzB]
      split <;> exact ⟨_, rfl⟩
    obtain ⟨code, hcode⟩ := hcode
    obtain ⟨hobj, stores, offs, hstores, hplaced, hptr⟩ := rawRecord_layout target hsz hcode
    refine ⟨code, hcode, hobj, stores, offs, hstores, hplaced, ?_⟩
    -- without fields both ends are zero
    obtain rfl : offs = [] := List.eq_nil_of_length_eq_zero hplaced.length
    obtain ⟨k, _, hword⟩ := wordSzB_eq target
    have hzero : roundUp (lastEnd [] []) target.wordSzB = 0 :=
      roundUp_of_dvd (hword ▸ Nat.two_pow_pos k) (Nat.dvd_zero _)
    rw [hptr, hzero]
    simp

end RawRecord

theorem rawRecord_layout_iff_mixed :
    PowerOfTwoSizes [⟨.int, 8⟩, ⟨.flt, 64⟩] ∧
      ¬ ∃ code, RawRecord.codegen arm64Info 0 [⟨.int, 8⟩, ⟨.flt, 64⟩] 4096
          [⟨0, .i8⟩, ⟨1, .f64⟩] = some code ∧
        HeapLayout arm64Info 0 [⟨.int, 8⟩, ⟨.flt, 64⟩] 4096 [⟨0, .i8⟩, ⟨1, .f64⟩] code fun n => n := by
  have hsz : PowerOfTwoSizes [⟨.int, 8⟩, ⟨.flt, 64⟩] := by
    rintro fld hfld
    simp only [List.mem_cons, List.not_mem_nil, or_false] at hfld
    rcases hfld with rfl | rfl
    · exact ⟨0, by decide, rfl⟩
    · exact ⟨3, by decide, rfl⟩
  refine ⟨hsz, fun h => ?_⟩
  have hlen : ([⟨0, .i8⟩, ⟨1, .f64⟩] : List (RawArg Nat)).length = 2 := rfl
  have hnil := (rawRecord_layout_iff arm64Info 0 4096 hsz hlen).2.mp h
  cases hnil

/-- A record of one 64-bit field ends 8 bytes after its object; ALLOC_PTR moves by 64. -/
theorem rawRecord_allocPtr_skips :
    RawRecord.codegen arm64Info 0 [⟨.int, 64⟩] 4096 [⟨0, .i64⟩] =
        some ⟨[⟨4096, .desc 0, 8⟩, ⟨4104, .arg 0, 8⟩], 4104, 4168⟩ ∧
      ¬ ∃ code, RawRecord.codegen arm64Info 0 [⟨.int, 64⟩] 4096 [⟨0, .i64⟩] = some code ∧
        HeapLayout arm64Info 0 [⟨.int, 64⟩] 4096 [⟨0, .i64⟩] code fun n => n := by
  refine ⟨by decide, ?_⟩
  rintro ⟨code, hcode, hlayout⟩
  refine not_heapLayout arm64Info ?_ rfl hcode (List.cons_ne_nil _ _) hlayout
  intro fld hfld
  rw [List.mem_singleton] at hfld
  subst hfld
  exact ⟨3, by decide, rfl⟩

end SmlnjLlvm.Codegen
