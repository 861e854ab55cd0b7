import Mathlib.Tactic.Ring
import SmlnjLlvm.Library.BumpAllocation

/-!
# Memory for the sections of an object file

The three sections of an object file stand one after the other in one block of
memory. Addresses and sizes are words of 64 bits, in which all sums wrap around;
a failed assertion is no result.
-/

namespace SmlnjLlvm.Codegen

open Alignment BumpAllocation

abbrev Word := BitVec 64

def alignBy (n align : Word) : Word := (n + (align - 1)) &&& ~~~(align - 1)

namespace MemManager

/-- Information about an in-memory section of the object file. -/
structure Section where
  data : Word
  szb : Word
  paddedSzb : Word
  deriving DecidableEq

def Section.setSize (S : Section) (szb align : Word) : Section :=
  { S with paddedSzb := alignBy szb align }

def Section.top (S : Section) : Word := S.data + S.paddedSzb

def Section.alloc (S : Section) (nb align : Word) : Option (Word × Section) :=
  if S.data = 0 then none
  else if alignBy S.szb align + alignBy nb align ≤ S.paddedSzb then
    let ptr := S.data + alignBy S.szb align
    some (ptr, { S with szb := ptr - S.data + alignBy nb align })
  else none

inductive SectionKind where
  | code | roData | rwData
  deriving DecidableEq

end MemManager

open MemManager

structure MemManager where
  mem : Word
  base : Word
  baseAlign : Word
  sections : SectionKind → Section

namespace MemManager

def new (align : Word) : MemManager where
  mem := 0
  base := 0
  baseAlign := align
  sections := fun _ => ⟨0, 0, 0⟩

def size (M : MemManager) : Word :=
  (M.sections .code).paddedSzb + (M.sections .roData).paddedSzb + (M.sections .rwData).paddedSzb

/-- The arguments of `reserveAllocationSpace`: a size and an alignment for each section. -/
structure Reservation where
  szb : SectionKind → Word
  align : SectionKind → Word

def Reservation.maxAlign (r : Reservation) : Word :=
  let maxAlign : Word := 8
  let maxAlign := if maxAlign < r.align .code then r.align .code else maxAlign
  let maxAlign := if maxAlign < r.align .roData then r.align .roData else maxAlign
  if maxAlign < r.align .rwData then r.align .rwData else maxAlign

def setSizes (M : MemManager) (r : Reservation) : MemManager :=
  { M with sections := fun k => (M.sections k).setSize (r.szb k) r.maxAlign }

def totalSize (M : MemManager) : Word := M.size + M.baseAlign - 1

def setBases (M : MemManager) : MemManager :=
  let code := { M.sections .code with data := M.base }
  let roData := { M.sections .roData with data := code.top }
  let rwData := { M.sections .rwData with data := roData.top }
  { M with sections := fun
      | .code => code
      | .roData => roData
      | .rwData => rwData }

def reserveAllocationSpace (M : MemManager) (mem : Word) (r : Reservation) : Option MemManager :=
  if M.mem ≠ 0 then none
  else
    let M := M.setSizes r
    let M := { M with mem := mem, base := alignBy mem M.baseAlign }
    if M.base + M.size ≤ M.mem + M.totalSize then some M.setBases else none

/-- A call of `allocateCodeSection` or of `allocateDataSection`. -/
inductive Request where
  | code (szb align : Word)
  | data (szb align : Word) (readOnly : Bool)

namespace Request

def kind : Request → SectionKind
  | code _ _ => .code
  | data _ _ readOnly => if readOnly then .roData else .rwData

def szb : Request → Word
  | code szb _ => szb
  | data szb _ _ => szb

def align : Request → Word
  | code _ align => align
  | data _ align _ => align

end Request

def setSection (M : MemManager) (k : SectionKind) (S : Section) : MemManager :=
  { M with sections := Function.update M.sections k S }

@[simp] theorem setSection_base (M : MemManager) (k : SectionKind) (S : Section) :
    (M.setSection k S).base = M.base := rfl

theorem setSection_self (M : MemManager) (k : SectionKind) (S : Section) :
    (M.setSection k S).sections k = S :=
  Function.update_self ..

theorem setSection_of_ne (M : MemManager) {j k : SectionKind} (S : Section) (h : j ≠ k) :
    (M.setSection k S).sections j = M.sections j :=
  Function.update_of_ne h ..

def allocate (M : MemManager) (req : Request) : Option (Word × MemManager) :=
  if M.base = 0 then none
  else do
    let (ptr, S) ← (M.sections req.kind).alloc req.szb req.align
    some (ptr, M.setSection req.kind S)

/-- A request with the address that it was given. -/
structure Allocation where
  req : Request
  ptr : Word

def allocateAll : List Request → MemManager × List Allocation →
    Option (MemManager × List Allocation)
  | [], s => some s
  | req :: reqs, (M, allocs) => do
      let (ptr, M) ← M.allocate req
      allocateAll reqs (M, ⟨req, ptr⟩ :: allocs)

def IsAlign (a : Word) : Prop := ∃ k < 64, a = BitVec.ofNat 64 (2 ^ k)

theorem IsAlign.toNat {a : Word} (h : IsAlign a) : ∃ k < 64, a.toNat = 2 ^ k := by
  obtain ⟨k, hk, rfl⟩ := h
  exact ⟨k, hk, Nat.mod_eq_of_lt (Nat.pow_lt_pow_right (by decide) hk)⟩

theorem IsAlign.pos {a : Word} (h : IsAlign a) : 0 < a.toNat := by
  obtain ⟨k, -, hk⟩ := h.toNat
  rw [hk]
  exact Nat.two_pow_pos k

theorem IsAlign.dvd {a b : Word} (ha : IsAlign a) (hb : IsAlign b) (hle : a.toNat ≤ b.toNat) :
    a.toNat ∣ b.toNat := by
  obtain ⟨j, -, hj⟩ := ha.toNat
  obtain ⟨k, -, hk⟩ := hb.toNat
  rw [hj, hk] at hle ⊢
  exact Nat.pow_dvd_pow 2 ((Nat.pow_le_pow_iff_right (by decide)).mp hle)

theorem toNat_alignBy {n a : Word} (ha : IsAlign a) (hfit : roundUp n.toNat a.toNat < 2 ^ 64) :
    (alignBy n a).toNat = roundUp n.toNat a.toNat := by
  obtain ⟨k, hk, hval⟩ := ha.toNat
  obtain ⟨k', hk', rfl⟩ := ha
  have hkk : 2 ^ k' = 2 ^ k := by
    rw [← hval]
    exact (Nat.mod_eq_of_lt (Nat.pow_lt_pow_right (by decide) hk')).symm
  have hmask := toNat_twoPow_sub_one hk'
  rw [hval] at hfit ⊢
  have hround : roundUp n.toNat (2 ^ k) + 2 ^ k ≤ 2 ^ 64 := by
    obtain ⟨c, hc⟩ := dvd_roundUp n.toNat (2 ^ k)
    obtain ⟨d, hd⟩ := Nat.pow_dvd_pow 2 (Nat.le_of_lt hk)
    rw [hc, hd] at hfit
    have hlt := Nat.lt_of_mul_lt_mul_left hfit
    have hmul := Nat.mul_le_mul_left (2 ^ k) (Nat.succ_le_of_lt hlt)
    rw [Nat.mul_succ] at hmul
    omega
  have hle := le_roundUp n.toNat (Nat.two_pow_pos k)
  unfold alignBy
  rw [toNat_and_not_low _ hk', BitVec.toNat_add, hmask, hkk, Nat.mod_eq_of_lt (by omega)]
  rfl

def Reservation.Fits (r : Reservation) (baseAlign : Word) : Prop :=
  roundUp (r.szb .code).toNat r.maxAlign.toNat + roundUp (r.szb .roData).toNat r.maxAlign.toNat +
    roundUp (r.szb .rwData).toNat r.maxAlign.toNat + baseAlign.toNat < 2 ^ 64

def IsBlock (mem n : Word) : Prop := mem ≠ 0 ∧ mem.toNat + n.toNat < 2 ^ 64

theorem IsAlign.ite {a b : Word} (c : Prop) [Decidable c] (ha : IsAlign a) (hb : IsAlign b) :
    IsAlign (if c then a else b) := by
  by_cases hc : c
  · rw [if_pos hc]
    exact ha
  · rw [if_neg hc]
    exact hb

theorem maxAlign_isAlign {r : Reservation} (h : ∀ k, IsAlign (r.align k)) : IsAlign r.maxAlign := by
  have height : IsAlign 8 := ⟨3, by decide, rfl⟩
  exact IsAlign.ite _ (h .rwData) (IsAlign.ite _ (h .roData) (IsAlign.ite _ (h .code) height))

theorem le_maxAlign (r : Reservation) (k : SectionKind) :
    (r.align k).toNat ≤ r.maxAlign.toNat := by
  unfold Reservation.maxAlign
  simp only [BitVec.lt_def]
  cases k with
  | code => split_ifs <;> omega
  | roData => split_ifs <;> omega
  | rwData => split_ifs <;> omega

/-- The memory of a manager: the sections follow each other in the block, each at a multiple
of the padding from the base. -/
structure Laid (M : MemManager) (maxAlign : Nat) : Prop where
  base_pos : 0 < M.base.toNat
  code_data : (M.sections .code).data.toNat = M.base.toNat
  roData_data : (M.sections .roData).data.toNat =
    M.base.toNat + (M.sections .code).paddedSzb.toNat
  rwData_data : (M.sections .rwData).data.toNat =
    M.base.toNat + (M.sections .code).paddedSzb.toNat + (M.sections .roData).paddedSzb.toNat
  size_eq : M.size.toNat = (M.sections .code).paddedSzb.toNat +
    (M.sections .roData).paddedSzb.toNat + (M.sections .rwData).paddedSzb.toNat
  end_lt : M.base.toNat + M.size.toNat < 2 ^ 64
  padded_dvd : ∀ k, maxAlign ∣ (M.sections k).paddedSzb.toNat

theorem reserve_spec {align mem : Word} {r : Reservation} (halign : IsAlign align)
    (hr : ∀ k, IsAlign (r.align k)) (hfits : r.Fits align)
    (hmem : IsBlock mem ((new align).setSizes r).totalSize) :
    ∃ M, (new align).reserveAllocationSpace mem r = some M ∧ Laid M r.maxAlign.toNat ∧
      M.base.toNat = roundUp mem.toNat align.toNat ∧ ∀ k, (M.sections k).szb = 0 := by
  have hmax := maxAlign_isAlign hr
  obtain ⟨hnull, hblock⟩ := hmem
  unfold Reservation.Fits at hfits
  have hpad : ∀ k, (alignBy (r.szb k) r.maxAlign).toNat =
      roundUp (r.szb k).toNat r.maxAlign.toNat := by
    intro k
    apply toNat_alignBy hmax
    cases k with
    | code => omega
    | roData => omega
    | rwData => omega
  have hcode := hpad .code
  have hro := hpad .roData
  have hrw := hpad .rwData
  have hpos := halign.pos
  have hsize : ((new align).setSizes r).size.toNat =
      roundUp (r.szb .code).toNat r.maxAlign.toNat +
        roundUp (r.szb .roData).toNat r.maxAlign.toNat +
        roundUp (r.szb .rwData).toNat r.maxAlign.toNat := by
    change (alignBy (r.szb .code) r.maxAlign + alignBy (r.szb .roData) r.maxAlign +
      alignBy (r.szb .rwData) r.maxAlign).toNat = _
    rw [BitVec.toNat_add, BitVec.toNat_add, hcode, hro, hrw]
    omega
  have htotal : ((new align).setSizes r).totalSize.toNat =
      ((new align).setSizes r).size.toNat + (align.toNat - 1) := by
    change (((new align).setSizes r).size + align - 1).toNat = _
    have hone : (1 : Word).toNat = 1 := rfl
    rw [BitVec.toNat_sub, BitVec.toNat_add, hone]
    omega
  have hmempos : 0 < mem.toNat := Nat.pos_of_ne_zero fun h => hnull (BitVec.eq_of_toNat_eq h)
  have hup := roundUp_le_add mem.toNat align.toNat
  have hbase : (alignBy mem align).toNat = roundUp mem.toNat align.toNat :=
    toNat_alignBy halign (by omega)
  have hbase_ge := le_roundUp mem.toNat hpos
  have hassert : alignBy mem align + ((new align).setSizes r).size ≤
      mem + ((new align).setSizes r).totalSize := by
    rw [BitVec.le_def, BitVec.toNat_add, BitVec.toNat_add, hbase]
    omega
  refine ⟨_, if_pos hassert, ?_, hbase, ?_⟩
  · constructor
    · change 0 < (alignBy mem align).toNat
      omega
    · rfl
    · change (alignBy mem align + alignBy (r.szb .code) r.maxAlign).toNat =
        (alignBy mem align).toNat + (alignBy (r.szb .code) r.maxAlign).toNat
      rw [BitVec.toNat_add, hbase, hcode]
      omega
    · change (alignBy mem align + alignBy (r.szb .code) r.maxAlign +
        alignBy (r.szb .roData) r.maxAlign).toNat = (alignBy mem align).toNat +
          (alignBy (r.szb .code) r.maxAlign).toNat + (alignBy (r.szb .roData) r.maxAlign).toNat
      rw [BitVec.toNat_add, BitVec.toNat_add, hbase, hcode, hro]
      omega
    · change ((new align).setSizes r).size.toNat = (alignBy (r.szb .code) r.maxAlign).toNat +
        (alignBy (r.szb .roData) r.maxAlign).toNat + (alignBy (r.szb .rwData) r.maxAlign).toNat
      rw [hsize, hcode, hro, hrw]
    · change (alignBy mem align).toNat + ((new align).setSizes r).size.toNat < 2 ^ 64
      omega
    · intro k
      cases k with
      | code => exact hcode ▸ dvd_roundUp _ _
      | roData => exact hro ▸ dvd_roundUp _ _
      | rwData => exact hrw ▸ dvd_roundUp _ _
  · intro k
    cases k with
    | code => rfl
    | roData => rfl
    | rwData => rfl

/-! ## Allocating -/

def Section.extended (S : Section) (ptr nb align : Word) : Section :=
  { S with szb := ptr - S.data + alignBy nb align }

theorem allocate_cases {M M' : MemManager} {req : Request} {ptr : Word}
    (h : M.allocate req = some (ptr, M')) :
    alignBy (M.sections req.kind).szb req.align + alignBy req.szb req.align ≤
        (M.sections req.kind).paddedSzb ∧
      ptr = (M.sections req.kind).data + alignBy (M.sections req.kind).szb req.align ∧
      M' = M.setSection req.kind
        ((M.sections req.kind).extended ptr req.szb req.align) := by
  unfold allocate at h
  split at h
  · cases h
  unfold Section.alloc at h
  split at h
  · cases h
  split at h
  · rename_i hroom
    cases h
    exact ⟨hroom, rfl, rfl⟩
  · cases h

def StepFits (M : MemManager) (req : Request) : Prop :=
  roundUp (M.sections req.kind).szb.toNat req.align.toNat +
    roundUp req.szb.toNat req.align.toNat < 2 ^ 64

def RunFits : List Request → MemManager → Prop
  | [], _ => True
  | req :: reqs, M =>
    M.StepFits req ∧ ∀ ptr M', M.allocate req = some (ptr, M') → RunFits reqs M'

def arenas (M : MemManager) (k : SectionKind) : Arena where
  lo := (M.sections k).data.toNat
  cap := (M.sections k).paddedSzb.toNat
  used := (M.sections k).szb.toNat

def Allocation.region (x : Allocation) : Region SectionKind :=
  ⟨x.req.kind, x.ptr.toNat, x.req.szb.toNat⟩

namespace Laid

variable {M : MemManager} {maxAlign : Nat}

theorem separate (h : Laid M maxAlign) : Separate M.arenas := by
  have hcode := h.code_data
  have hro := h.roData_data
  have hrw := h.rwData_data
  intro i j hij
  change (M.sections i).data.toNat + (M.sections i).paddedSzb.toNat ≤ (M.sections j).data.toNat ∨
    (M.sections j).data.toNat + (M.sections j).paddedSzb.toNat ≤ (M.sections i).data.toNat
  cases i with
  | code =>
    cases j with
    | code => exact absurd rfl hij
    | roData => omega
    | rwData => omega
  | roData =>
    cases j with
    | code => omega
    | roData => exact absurd rfl hij
    | rwData => omega
  | rwData =>
    cases j with
    | code => omega
    | roData => omega
    | rwData => exact absurd rfl hij

theorem section_le (h : Laid M maxAlign) (k : SectionKind) :
    M.base.toNat ≤ (M.sections k).data.toNat ∧
      (M.sections k).data.toNat + (M.sections k).paddedSzb.toNat ≤
        M.base.toNat + M.size.toNat := by
  have hcode := h.code_data
  have hro := h.roData_data
  have hrw := h.rwData_data
  have hsize := h.size_eq
  cases k with
  | code => omega
  | roData => omega
  | rwData => omega

theorem data_eq (h : Laid M maxAlign) (k : SectionKind) :
    ∃ c, (M.sections k).data.toNat = M.base.toNat + c * maxAlign := by
  obtain ⟨c, hc⟩ := h.padded_dvd .code
  obtain ⟨d, hd⟩ := h.padded_dvd .roData
  cases k with
  | code => exact ⟨0, by rw [h.code_data, Nat.zero_mul, Nat.add_zero]⟩
  | roData => exact ⟨c, by rw [h.roData_data, hc, Nat.mul_comm]⟩
  | rwData => exact ⟨c + d, by rw [h.rwData_data, hc, hd]; ring⟩

theorem setSection (h : Laid M maxAlign) {k : SectionKind} {S : Section}
    (hdata : S.data = (M.sections k).data) (hpadded : S.paddedSzb = (M.sections k).paddedSzb) :
    (M.setSection k S).size = M.size ∧ Laid (M.setSection k S) maxAlign := by
  have hdata : ∀ j, ((M.setSection k S).sections j).data = (M.sections j).data := by
    intro j
    by_cases hj : j = k
    · rw [hj, setSection_self, hdata]
    · rw [setSection_of_ne M S hj]
  have hpadded : ∀ j, ((M.setSection k S).sections j).paddedSzb = (M.sections j).paddedSzb := by
    intro j
    by_cases hj : j = k
    · rw [hj, setSection_self, hpadded]
    · rw [setSection_of_ne M S hj]
  have hsize : (M.setSection k S).size = M.size := by
    unfold size
    rw [hpadded, hpadded, hpadded]
  refine ⟨hsize, ?_⟩
  constructor
  · exact h.base_pos
  · rw [hdata]
    exact h.code_data
  · rw [hdata, hpadded]
    exact h.roData_data
  · rw [hdata, hpadded, hpadded]
    exact h.rwData_data
  · rw [hsize, hpadded, hpadded, hpadded]
    exact h.size_eq
  · rw [hsize]
    exact h.end_lt
  · intro j
    rw [hpadded]
    exact h.padded_dvd j

end Laid

theorem allocate_spec {M M' : MemManager} {req : Request} {ptr : Word} {maxAlign : Nat}
    (hlaid : Laid M maxAlign) (halign : IsAlign req.align) (hfits : M.StepFits req)
    (h : M.allocate req = some (ptr, M')) :
    roundUp (M.arenas req.kind).used req.align.toNat + roundUp req.szb.toNat req.align.toNat ≤
        (M.arenas req.kind).cap ∧
      ptr.toNat = (M.arenas req.kind).place req.align.toNat ∧
      M'.arenas = Function.update M.arenas req.kind
        ((M.arenas req.kind).extend req.szb.toNat req.align.toNat) ∧
      M'.base = M.base ∧ M'.size = M.size ∧ Laid M' maxAlign := by
  obtain ⟨hroom, hptr, hM'⟩ := allocate_cases h
  unfold StepFits at hfits
  have hused := toNat_alignBy (n := (M.sections req.kind).szb) halign (by omega)
  have hsize := toNat_alignBy (n := req.szb) halign (by omega)
  have hend := (hlaid.section_le req.kind).2
  have hlt := hlaid.end_lt
  rw [BitVec.le_def, BitVec.toNat_add, hused, hsize, Nat.mod_eq_of_lt hfits] at hroom
  have hplace : ptr.toNat = (M.arenas req.kind).place req.align.toNat := by
    rw [hptr, BitVec.toNat_add, hused, Nat.mod_eq_of_lt (by omega)]
    rfl
  have hszb : ((M.sections req.kind).extended ptr req.szb req.align).szb.toNat =
      roundUp (M.sections req.kind).szb.toNat req.align.toNat +
        roundUp req.szb.toNat req.align.toNat := by
    change (ptr - (M.sections req.kind).data + alignBy req.szb req.align).toNat = _
    rw [hptr, BitVec.add_comm (M.sections req.kind).data, BitVec.add_sub_cancel, BitVec.toNat_add,
      hused, hsize, Nat.mod_eq_of_lt hfits]
  have hnew := hlaid.setSection (S := (M.sections req.kind).extended ptr req.szb req.align) rfl rfl
  rw [← hM'] at hnew
  refine ⟨hroom, hplace, ?_, ?_, hnew⟩
  · funext k
    unfold arenas
    by_cases hk : k = req.kind
    · rw [hk, Function.update_self, hM', setSection_self, hszb]
      rfl
    · rw [Function.update_of_ne hk, hM', setSection_of_ne _ _ hk]
  · rw [hM', setSection_base]

/-! ## Runs -/

def Reservation.Admits (r : Reservation) (req : Request) : Prop :=
  IsAlign req.align ∧ req.align.toNat ≤ (r.align req.kind).toNat

/-- What holds after some allocations from a manager with this base and this size. -/
structure Allocated (base size : Word) (maxAlign : Nat) (M : MemManager)
    (allocs : List Allocation) : Prop where
  base_eq : M.base = base
  size_eq : M.size = size
  laid : Laid M maxAlign
  packed : Packed M.arenas (allocs.map Allocation.region)
  aligned_iff : ∀ x ∈ allocs, x.req.align.toNat ∣ x.ptr.toNat ↔ x.req.align.toNat ∣ base.toNat

theorem Allocated.step {base size : Word} {r : Reservation} {M M' : MemManager}
    {allocs : List Allocation} {req : Request} {ptr : Word} (hr : ∀ k, IsAlign (r.align k))
    (h : Allocated base size r.maxAlign.toNat M allocs) (hreq : r.Admits req)
    (hfits : M.StepFits req) (hrun : M.allocate req = some (ptr, M')) :
    Allocated base size r.maxAlign.toNat M' (⟨req, ptr⟩ :: allocs) := by
  obtain ⟨hroom, hptr, harenas, hbase, hsize, hlaid⟩ := allocate_spec h.laid hreq.1 hfits hrun
  constructor
  · exact hbase.trans h.base_eq
  · exact hsize.trans h.size_eq
  · exact hlaid
  · have hpacked := h.packed.alloc h.laid.separate req.kind req.szb.toNat hreq.1.pos hroom
    rw [harenas, List.map_cons]
    unfold Allocation.region at hpacked ⊢
    rw [hptr]
    exact hpacked
  · intro x hx
    rcases List.mem_cons.mp hx with rfl | hx
    · -- The padding of the sections before is a multiple of the alignment.
      have hdvd : req.align.toNat ∣ r.maxAlign.toNat :=
        hreq.1.dvd (maxAlign_isAlign hr) (hreq.2.trans (le_maxAlign r req.kind))
      obtain ⟨c, hc⟩ := h.laid.data_eq req.kind
      have hsplit : ptr.toNat = base.toNat + (c * r.maxAlign.toNat +
          roundUp (M.sections req.kind).szb.toNat req.align.toNat) := by
        rw [hptr, ← h.base_eq, ← Nat.add_assoc, ← hc]
        rfl
      rw [hsplit]
      exact (Nat.dvd_add_iff_left
        (Nat.dvd_add (hdvd.mul_left c) (dvd_roundUp _ _))).symm
    · exact h.aligned_iff x hx

theorem allocateAll_spec {base size : Word} {r : Reservation} (hr : ∀ k, IsAlign (r.align k))
    (reqs : List Request) :
    ∀ {M M' : MemManager} {allocs allocs' : List Allocation},
      Allocated base size r.maxAlign.toNat M allocs → (∀ req ∈ reqs, r.Admits req) →
      RunFits reqs M → allocateAll reqs (M, allocs) = some (M', allocs') →
      Allocated base size r.maxAlign.toNat M' allocs' ∧
        allocs'.map Allocation.req = reqs.reverse ++ allocs.map Allocation.req := by
  induction reqs with
  | nil =>
    intro M M' allocs allocs' h hreqs hfits hrun
    cases hrun
    exact ⟨h, rfl⟩
  | cons req reqs ih =>
    intro M M' allocs allocs' h hreqs hfits hrun
    obtain ⟨⟨ptr, M₁⟩, hstep, hrest⟩ := Option.bind_eq_some_iff.mp hrun
    have hone := h.step hr (hreqs req List.mem_cons_self) hfits.1 hstep
    obtain ⟨hall, hmap⟩ := ih hone
      (fun req' hmem => hreqs req' (List.mem_cons_of_mem req hmem)) (hfits.2 ptr M₁ hstep) hrest
    refine ⟨hall, ?_⟩
    rw [hmap, List.reverse_cons, List.append_assoc]
    rfl

/-- The regions of all allocations are pairwise disjoint, lie between `data()` and
`data() + size()`, and have the alignments that were asked for. -/
structure Placed (M : MemManager) (allocs : List Allocation) : Prop where
  disjoint : allocs.Pairwise fun x y => Disjoint x.region.bytes y.region.bytes
  inside : ∀ x ∈ allocs, M.base.toNat ≤ x.ptr.toNat ∧
    x.ptr.toNat + x.req.szb.toNat ≤ M.base.toNat + M.size.toNat
  aligned : ∀ x ∈ allocs, x.req.align.toNat ∣ x.ptr.toNat

theorem Allocated.inside {base size : Word} {maxAlign : Nat} {M : MemManager}
    {allocs : List Allocation} (h : Allocated base size maxAlign M allocs) {x : Allocation}
    (hx : x ∈ allocs) : M.base.toNat ≤ x.ptr.toNat ∧
      x.ptr.toNat + x.req.szb.toNat ≤ M.base.toNat + M.size.toNat := by
  have hmem := List.mem_map_of_mem (f := Allocation.region) hx
  have hlo : (M.sections x.req.kind).data.toNat ≤ x.ptr.toNat := h.packed.lo_le _ hmem
  have hend : x.ptr.toNat + x.req.szb.toNat ≤
      (M.sections x.req.kind).data.toNat + (M.sections x.req.kind).szb.toNat :=
    h.packed.end_le _ hmem
  have hused : (M.sections x.req.kind).szb.toNat ≤ (M.sections x.req.kind).paddedSzb.toNat :=
    h.packed.used_le x.req.kind
  have hsection := h.laid.section_le x.req.kind
  omega

/-- The sections are padded to the greatest alignment, but the base of the block has
only the alignment of the constructor: a region is aligned only where its
alignment divides the base. -/
theorem placed_iff {align mem : Word} {r : Reservation} {reqs : List Request} {M M' : MemManager}
    {allocs : List Allocation} (halign : IsAlign align) (hr : ∀ k, IsAlign (r.align k))
    (hreserved : r.Fits align) (hmem : IsBlock mem ((new align).setSizes r).totalSize)
    (hM : (new align).reserveAllocationSpace mem r = some M) (hreqs : ∀ req ∈ reqs, r.Admits req)
    (hfits : RunFits reqs M) (hrun : allocateAll reqs (M, []) = some (M', allocs)) :
    Placed M' allocs ↔
      ∀ req ∈ reqs, req.align.toNat ∣ roundUp mem.toNat align.toNat := by
  obtain ⟨M₀, hM₀, hlaid, hbase, hempty⟩ := reserve_spec halign hr hreserved hmem
  cases hM.symm.trans hM₀
  have hstart : Allocated M.base M.size r.maxAlign.toNat M [] := by
    refine ⟨rfl, rfl, hlaid, Packed.empty ?_, fun x hx => absurd hx List.not_mem_nil⟩
    intro k
    change (M.sections k).szb.toNat ≤ _
    rw [hempty k]
    exact Nat.zero_le _
  obtain ⟨hall, hmap⟩ := allocateAll_spec hr reqs hstart hreqs hfits hrun
  rw [List.map_nil, List.append_nil] at hmap
  rw [← hbase]
  constructor
  · intro hplaced req hreq
    rw [← List.mem_reverse, ← hmap] at hreq
    obtain ⟨x, hx, rfl⟩ := List.mem_map.mp hreq
    exact (hall.aligned_iff x hx).mp (hplaced.aligned x hx)
  · intro hdvd
    constructor
    · have hdisjoint := hall.packed.disjoint
      rw [List.pairwise_map] at hdisjoint
      exact hdisjoint
    · exact fun x hx => hall.inside hx
    · intro x hx
      have hreq := List.mem_map_of_mem (f := Allocation.req) hx
      rw [hmap, List.mem_reverse] at hreq
      exact (hall.aligned_iff x hx).mpr (hdvd x.req hreq)

/-- The base alignment of the source, and code with an alignment of `0x2000`. -/
theorem code_off_alignment :
    ¬∀ (align mem : Word) (r : Reservation) (reqs : List Request) (M M' : MemManager)
      (allocs : List Allocation), IsAlign align → (∀ k, IsAlign (r.align k)) →
      (new align).reserveAllocationSpace mem r = some M → (∀ req ∈ reqs, r.Admits req) →
      allocateAll reqs (M, []) = some (M', allocs) → Placed M' allocs := by
  intro hclaim
  have hplaced := hclaim 0x1000 0x7f0000000010
    ⟨fun | .code => 0x2000 | _ => 0, fun | .code => 0x2000 | _ => 8⟩ [.code 0x2000 0x2000] _ _ _
    ⟨12, by decide, rfl⟩ ?_ rfl ?_ rfl
  · exact absurd (hplaced.aligned _ List.mem_cons_self) (by decide)
  · intro k
    cases k with
    | code => exact ⟨13, by decide, rfl⟩
    | roData => exact ⟨3, by decide, rfl⟩
    | rwData => exact ⟨3, by decide, rfl⟩
  · intro req hreq
    cases List.mem_singleton.mp hreq
    exact ⟨⟨13, by decide, rfl⟩, Nat.le_refl _⟩

def smallReservation : Reservation where
  szb := fun _ => 0x90
  align := fun | .code => 0x100 | _ => 16

def smallRequests : List Request :=
  [.code 0x90 0x100, .data 0x21 16 true, .data 4 8 false, .data 0x10 16 false]

/-- A run with requests in all sections. -/
theorem placed_iff_small :
    ∃ M M' allocs, (new 0x1000).reserveAllocationSpace 0x7f0000000010 smallReservation = some M ∧
      allocateAll smallRequests (M, []) = some (M', allocs) ∧ Placed M' allocs := by
  refine ⟨_, _, _, rfl, rfl, (@placed_iff 0x1000 0x7f0000000010 smallReservation smallRequests _ _ _
    ⟨12, by decide, rfl⟩ ?_ (by unfold Reservation.Fits; decide) (by unfold IsBlock; decide) rfl ?_
    ?_ rfl).mpr ?_⟩
  · intro k
    cases k with
    | code => exact ⟨8, by decide, rfl⟩
    | roData => exact ⟨4, by decide, rfl⟩
    | rwData => exact ⟨4, by decide, rfl⟩
  · intro req hreq
    simp only [smallRequests, List.mem_cons, List.not_mem_nil, or_false] at hreq
    rcases hreq with rfl | rfl | rfl | rfl
    · exact ⟨⟨8, by decide, rfl⟩, by decide⟩
    · exact ⟨⟨4, by decide, rfl⟩, by decide⟩
    · exact ⟨⟨3, by decide, rfl⟩, by decide⟩
    · exact ⟨⟨4, by decide, rfl⟩, by decide⟩
  · unfold smallRequests RunFits
    refine ⟨by unfold StepFits; decide, fun ptr M' h => ?_⟩
    cases h
    refine ⟨by unfold StepFits; decide, fun ptr M' h => ?_⟩
    cases h
    refine ⟨by unfold StepFits; decide, fun ptr M' h => ?_⟩
    cases h
    exact ⟨by unfold StepFits; decide, fun _ _ _ => trivial⟩
  · decide

end MemManager

end SmlnjLlvm.Codegen
