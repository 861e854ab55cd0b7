import SmlnjLlvm.DebugInfo.GsymInlineTrees

/-!
# Lookups in GSYM inline trees

The lookup in the bytes goes down the same path as the one in the tree, and puts
the call sites along it behind the location it starts from.
-/

namespace SmlnjLlvm.Gsym.InlineInfo

open LEB128 Loop

def start (II : InlineInfo) : Nat := (II.Ranges.Ranges.head?.map AddressRange.Start).getD 0

def callFile (GR : GsymReader) (II : InlineInfo) : FileEntry :=
  (GR.getFile II.CallFile).getD ⟨0, 0⟩

def Resolves (GR : GsymReader) (II : InlineInfo) : Prop :=
  ∃ e, GR.getFile II.CallFile = some e ∧ (e.Dir ≠ 0 ∨ e.Base ≠ 0)

/-- Each function of the stack, from the deepest on, takes over the location, whose place moves on
to the call of the function. -/
def unwind (GR : GsymReader) (Addr : Nat) : SourceLocation → List InlineInfo → List SourceLocation
  | back, [] => [back]
  | back, II :: rest =>
    back.enter GR Addr II.Name II.start ::
      unwind GR Addr (back.caller GR (II.callFile GR) II.CallLine) rest

/-- Every node is that of an inlined function. -/
inductive Inlined (GR : GsymReader) : InlineInfo → Prop
  | node {II : InlineInfo} (named : II.Name ≠ 0) (resolves : II.Resolves GR)
      (children : ∀ Child ∈ II.Children, Inlined GR Child) : Inlined GR II

/-- The root is that of a concrete function, the other nodes are those of inlined ones. -/
structure Concrete (GR : GsymReader) (II : InlineInfo) : Prop where
  unnamed : II.Name = 0
  unresolved : ¬II.Resolves GR
  children : ∀ Child ∈ II.Children, Inlined GR Child

section Unwind

variable (GR : GsymReader) (Addr : Nat)

theorem unwind_concat (back : SourceLocation) (path : List InlineInfo) (II : InlineInfo) :
    ∃ init last, unwind GR Addr back path = init ++ [last] ∧
      unwind GR Addr back (path ++ [II]) =
        init ++ [last.enter GR Addr II.Name II.start,
          last.caller GR (II.callFile GR) II.CallLine] := by
  induction path generalizing back with
  | nil => exact ⟨[], back, rfl, rfl⟩
  | cons J path ih =>
    obtain ⟨init, last, hpath, hconcat⟩ := ih (back.caller GR (J.callFile GR) J.CallLine)
    refine ⟨back.enter GR Addr J.Name J.start :: init, last, ?_, ?_⟩
    · rw [unwind, hpath, List.cons_append]
    · rw [List.cons_append, unwind, hconcat, List.cons_append]

theorem pushCaller_unwind {II : InlineInfo} {e : FileEntry} (HasChildren : Bool)
    (hfile : GR.getFile II.CallFile = some e) (hentry : e.Dir ≠ 0 ∨ e.Base ≠ 0)
    (locs : List SourceLocation) (back : SourceLocation) (path : List InlineInfo) :
    pushCaller GR Addr ⟨HasChildren, II.Name, II.CallFile, II.CallLine⟩ II.start e
      (locs ++ unwind GR Addr back path) = some (locs ++ unwind GR Addr back (path ++ [II])) := by
  obtain ⟨init, last, hpath, hconcat⟩ := unwind_concat GR Addr back path II
  have hcall : II.callFile GR = e := by rw [callFile, hfile, Option.getD_some]
  rw [hpath, hconcat, hcall, ← List.append_assoc]
  unfold pushCaller
  rw [if_pos hentry, List.getLast?_concat, List.dropLast_concat, ← List.append_assoc]
  rfl

end Unwind

variable {d : DataExtractor} (GR : GsymReader) (Addr : Nat) {BaseAddr : Nat} {bytes : List UInt8}
  {II : InlineInfo} {turns : Nat} {s : LookupState}

theorem lookupAt_outside (h : encode d.IsLittleEndian II BaseAddr = some (.ok bytes))
    (hat : d.At s.Offset bytes) (hturns : bytes.length ≤ turns)
    (hout : II.Ranges.containsAddr Addr = false) :
    lookupAt GR d Addr turns BaseAddr s =
      some (false, { s with Offset := s.Offset + bytes.length }) := by
  obtain ⟨first, more, ranges, rest, hfirst, hranges, hchain, rfl⟩ := encode_eq_ok h
  rw [List.length_append, List.length_append] at hturns
  have hrpos := List.length_pos_of_ne_nil (encodeRanges_ne_nil hranges)
  have hfpos : 0 < (encodeFields d.IsLittleEndian (!II.Children.isEmpty) II.Name II.CallFile
    II.CallLine).length := length_encodeFields_pos _
  obtain ⟨turns, rfl⟩ : ∃ n, turns = n + 1 := ⟨turns - 1, by omega⟩
  have hskip := skip_fields II hchain hat.right (show rest.length < turns by omega)
  simp only [lookupAt, decodeRanges_at hranges hat.left, Option.bind_eq_bind, Option.bind_some]
  rw [hfirst]
  simp [hout, hskip, Nat.add_assoc]

def finishLookup (GR : GsymReader) (Addr : Nat) (II : InlineInfo) (s : LookupState) :
    Option (Bool × LookupState) :=
  match GR.getFile II.CallFile with
  | none => some (false, { s with Err := some (.noFile II.CallFile) })
  | some CallFile =>
    (pushCaller GR Addr ⟨!II.Children.isEmpty, II.Name, II.CallFile, II.CallLine⟩ II.start
      CallFile s.SrcLocs).bind fun SrcLocs => some (true, { s with SrcLocs := SrcLocs })

theorem lookupAt_inside (h : encode d.IsLittleEndian II BaseAddr = some (.ok bytes))
    (hat : d.At s.Offset bytes) (hturns : bytes.length ≤ turns + 1)
    (hin : II.Ranges.containsAddr Addr = true) :
    ∃ Offset rest, Chain d.IsLittleEndian II.Ranges II.start II.Children rest ∧
      d.At Offset rest ∧ rest.length ≤ turns ∧
      lookupAt GR d Addr (turns + 1) BaseAddr s =
        (if !II.Children.isEmpty then
            loop (lookupTurn (lookupAt GR d Addr turns II.start)) turns { s with Offset := Offset }
          else some { s with Offset := Offset }).bind (finishLookup GR Addr II) := by
  obtain ⟨first, more, ranges, rest, hfirst, hranges, hchain, rfl⟩ := encode_eq_ok h
  rw [List.length_append, List.length_append] at hturns
  have hrpos := List.length_pos_of_ne_nil (encodeRanges_ne_nil hranges)
  have hstart : II.start = first.Start := by simp [start, hfirst]
  refine ⟨_, rest, hstart ▸ hchain, hat.right.right, by omega, ?_⟩
  simp only [lookupAt, decodeRanges_at hranges hat.left, Option.bind_eq_bind, Option.bind_some]
  rw [hfirst]
  simp only [hin, if_true, readFields_at hat.right.left, Option.bind_some]
  unfold finishLookup
  rw [hstart]
  cases II.Children.isEmpty <;> rfl

def GoesDown (GR : GsymReader) (d : DataExtractor) (Addr : Nat) (II : InlineInfo) : Prop :=
  ∀ {BaseAddr turns : Nat} {bytes : List UInt8} {s : LookupState} {locs : List SourceLocation}
    {back : SourceLocation}, encode d.IsLittleEndian II BaseAddr = some (.ok bytes) →
    d.At s.Offset bytes → bytes.length ≤ turns → s.SrcLocs = locs ++ [back] →
    II.Ranges.containsAddr Addr = true →
    ∃ path Offset, (∀ stack, getInlineStackHelper Addr II stack = (true, path ++ stack)) ∧
      lookupAt GR d Addr turns BaseAddr s =
        some (true, ⟨Offset, locs ++ unwind GR Addr back path, s.Err⟩)

section Tree

variable {GR}

theorem lookupChildren_inlined {cs : List InlineInfo} (hdown : ∀ Child ∈ cs, GoesDown GR d Addr Child)
    {Ranges : AddressRanges} {ChildBaseAddr turns fuel : Nat} {rest : List UInt8} {s : LookupState}
    {locs : List SourceLocation} {back : SourceLocation}
    (h : encodeChildren d.IsLittleEndian Ranges ChildBaseAddr cs = some (.ok rest))
    (hat : d.At s.Offset rest) (hturns : rest.length ≤ turns) (hfuel : rest.length ≤ fuel)
    (hlocs : s.SrcLocs = locs ++ [back]) :
    ∃ path Offset, (∀ stack, inlineStackOfChildren Addr cs stack = path ++ stack) ∧
      loop (lookupTurn (lookupAt GR d Addr fuel ChildBaseAddr)) turns s =
        some ⟨Offset, locs ++ unwind GR Addr back path, s.Err⟩ := by
  induction cs generalizing s turns rest with
  | nil =>
    have hpos := encodeChildren_length_pos h
    obtain ⟨turns, rfl⟩ : ∃ n, turns = n + 1 := ⟨turns - 1, by omega⟩
    obtain ⟨fuel, rfl⟩ : ∃ n, fuel = n + 1 := ⟨fuel - 1, by omega⟩
    cases h
    refine ⟨[], s.Offset + (uleb128 0).length, fun stack => rfl, ?_⟩
    apply loop_exit
    simp [lookupTurn, lookupAt, decodeRanges_zero hat, AddressRanges.empty, hlocs, unwind]
  | cons Child cs ih =>
    obtain ⟨first, more, hfirst, hmore, rfl⟩ := encodeChildren_cons h
    have hpos := (encode_valid hfirst).2
    rw [List.length_append] at hturns hfuel
    obtain ⟨turns, rfl⟩ : ∃ n, turns = n + 1 := ⟨turns - 1, by omega⟩
    cases hin : Child.Ranges.containsAddr Addr with
    | true =>
      obtain ⟨path, Offset, hpath, hlookup⟩ := hdown Child List.mem_cons_self hfirst hat.left
        (show first.length ≤ fuel by omega) hlocs hin
      refine ⟨path, Offset, fun stack => ?_, ?_⟩
      · simp [inlineStackOfChildren, hpath]
      · apply loop_exit
        simp [lookupTurn, hlookup]
    | false =>
      have houtside : ∀ stack, getInlineStackHelper Addr Child stack = (false, stack) := by
        intro stack
        obtain ⟨Name, CallFile, CallLine, Ranges, Children⟩ := Child
        have hout : Ranges.containsAddr Addr = false := hin
        simp [getInlineStackHelper, hout]
      have hskip := lookupAt_outside GR Addr hfirst hat.left (show first.length ≤ fuel by omega) hin
      have hturn : lookupTurn (lookupAt GR d Addr fuel ChildBaseAddr) s =
          some (.next { s with Offset := s.Offset + first.length }) := by
        simp [lookupTurn, hskip]
      obtain ⟨path, Offset, hpath, hloop⟩ :=
        ih (fun J hJ => hdown J (List.mem_cons_of_mem Child hJ))
          (s := { s with Offset := s.Offset + first.length }) hmore hat.right
          (show more.length ≤ turns by omega) (show more.length ≤ fuel by omega) hlocs
      refine ⟨path, Offset, fun stack => ?_, ?_⟩
      · simp [inlineStackOfChildren, houtside, hpath]
      · rw [loop_next hturn, hloop]

theorem lookupChain {cs : List InlineInfo} (hdown : ∀ Child ∈ cs, GoesDown GR d Addr Child)
    {Ranges : AddressRanges} {ChildBaseAddr turns : Nat} {rest : List UInt8} {s : LookupState}
    {locs : List SourceLocation} {back : SourceLocation}
    (hchain : Chain d.IsLittleEndian Ranges ChildBaseAddr cs rest) (hat : d.At s.Offset rest)
    (hturns : rest.length ≤ turns) (hlocs : s.SrcLocs = locs ++ [back]) :
    ∃ path Offset, (∀ stack, inlineStackOfChildren Addr cs stack = path ++ stack) ∧
      (if !cs.isEmpty then
          loop (lookupTurn (lookupAt GR d Addr turns ChildBaseAddr)) turns s
        else some s) = some ⟨Offset, locs ++ unwind GR Addr back path, s.Err⟩ := by
  cases cs with
  | nil =>
    refine ⟨[], s.Offset, fun stack => rfl, ?_⟩
    obtain ⟨Offset, SrcLocs, Err⟩ := s
    cases hlocs
    rfl
  | cons Child cs =>
    obtain ⟨hnil, -⟩ | ⟨-, hchildren⟩ := hchain
    · cases hnil
    · exact lookupChildren_inlined Addr hdown hchildren hat hturns hturns hlocs

theorem lookupAt_inlined (hinlined : Inlined GR II) : GoesDown GR d Addr II := by
  induction hinlined with
  | @node II named resolves children ih =>
    intro BaseAddr turns bytes s locs back h hat hturns hlocs hin
    obtain ⟨e, hfile, hentry⟩ := resolves
    have hpos := (encode_valid h).2
    obtain ⟨turns, rfl⟩ : ∃ n, turns = n + 1 := ⟨turns - 1, by omega⟩
    obtain ⟨Offset, rest, hchain, hrest, hlen, hlookup⟩ :=
      lookupAt_inside GR Addr h hat hturns hin
    obtain ⟨path, Offset', hpath, hloop⟩ :=
      lookupChain Addr ih hchain (s := { s with Offset := Offset }) hrest hlen hlocs
    refine ⟨path ++ [II], Offset', fun stack => ?_, ?_⟩
    · obtain ⟨Name, CallFile, CallLine, Ranges, Children⟩ := II
      have hne : ¬Name = 0#32 := named
      have hinside : Ranges.containsAddr Addr = true := hin
      have hchildren : ∀ stack, inlineStackOfChildren Addr Children stack = path ++ stack := hpath
      simp [getInlineStackHelper, hinside, hne, hchildren]
    · rw [hlookup, hloop, Option.bind_some, finishLookup, hfile]
      simp only
      rw [pushCaller_unwind GR Addr _ hfile hentry]
      rfl

end Tree

/-! ## The codec -/

/-- No node is without ranges, and those of a child lie in those of its parent. -/
inductive Nested : InlineInfo → Prop
  | node {II : InlineInfo} (nonempty : II.Ranges.Ranges ≠ [])
      (contained : ∀ Child ∈ II.Children, ∀ R ∈ Child.Ranges.Ranges,
        ∃ P ∈ II.Ranges.Ranges, P.contains R = true)
      (children : ∀ Child ∈ II.Children, Nested Child) : Nested II

theorem contains_of_mem {Ranges : AddressRanges} {R : AddressRange} (hR : R.Start < R.End)
    (h : ∃ P ∈ Ranges.Ranges, P.contains R = true) : Ranges.contains R = true := by
  refine (containsRange_iff Ranges.normalised.ascending).mpr ⟨?_, h⟩
  rw [← Bool.not_eq_true, AddressRange.empty_iff]
  exact Nat.not_le.mpr hR

theorem encode_total (le : Bool) (h : Nested II) (hbase : ∀ R ∈ II.Ranges.Ranges, BaseAddr ≤ R.Start) :
    ∃ bytes, encode le II BaseAddr = some (.ok bytes) := by
  induction h generalizing BaseAddr with
  | @node II nonempty contained children ih =>
    obtain ⟨first, more, hfirst⟩ := List.exists_cons_of_ne_nil nonempty
    have hhead := AddressRanges.head_le hfirst
    have hchain : ∀ cs : List InlineInfo, (∀ Child ∈ cs, Child ∈ II.Children) →
        ∃ bytes, encodeChildren le II.Ranges first.Start cs = some (.ok bytes) := by
      intro cs hcs
      induction cs with
      | nil => exact ⟨_, rfl⟩
      | cons Child cs ihcs =>
        have hChild := hcs Child List.mem_cons_self
        obtain ⟨rest, hrest⟩ := ihcs fun J hJ => hcs J (List.mem_cons_of_mem Child hJ)
        have hstarts : ∀ R ∈ Child.Ranges.Ranges, first.Start ≤ R.Start := by
          intro R hR
          obtain ⟨P, hP, hcontains⟩ := contained Child hChild R hR
          have hle := hhead P hP
          simp only [AddressRange.contains, Bool.and_eq_true, decide_eq_true_eq] at hcontains
          omega
        obtain ⟨bytes, hbytes⟩ := ih Child hChild hstarts
        have hall : Child.Ranges.Ranges.all II.Ranges.contains = true :=
          List.all_eq_true.mpr fun R hR => contains_of_mem
            (Child.Ranges.normalised.nonempty R hR) (contained Child hChild R hR)
        refine ⟨bytes ++ rest, ?_⟩
        rw [encodeChildren, if_pos hall, hbytes, hrest]
        rfl
    obtain ⟨ranges, hranges⟩ := encodeRanges_total hbase
    obtain ⟨rest, hrest⟩ := hchain II.Children fun _ hChild => hChild
    obtain ⟨Name, CallFile, CallLine, Ranges, Children⟩ := II
    unfold encode
    simp only at hfirst hranges hrest
    split
    · next hnil => exact absurd hnil nonempty
    · next first' more' hfirst' =>
      obtain ⟨rfl, rfl⟩ := List.cons.inj (hfirst.symm.trans hfirst')
      rw [hranges, hrest]
      cases Children.isEmpty with
      | true => exact ⟨_, rfl⟩
      | false => exact ⟨_, rfl⟩

/-- What is read back from the bytes of a tree at the beginning of the data. -/
structure ReadsBack (d : DataExtractor) (BaseAddr Size : Nat) (II : InlineInfo) : Prop where
  decoded : decode d BaseAddr = some (.ok II)
  decodedTo : decodeAt d (d.Data.length + 1) BaseAddr 0 = some (.ok (II, Size))
  skippedTo : skip d (d.Data.length + 1) 0 false = some (true, Size)

/-- A lookup leaves the locations of the inline stack of the tree. It has an error when the root has
no entry for its call file and the address is in it. -/
def LooksUp (GR : GsymReader) (d : DataExtractor) (BaseAddr : Nat) (II : InlineInfo) : Prop :=
  ∀ (Addr : Nat) (locs : List SourceLocation) (back : SourceLocation),
    lookup GR d Addr BaseAddr (locs ++ [back]) = some
      (if II.Ranges.containsAddr Addr ∧ GR.getFile II.CallFile = none then
          some (.noFile II.CallFile)
        else none,
        locs ++ unwind GR Addr back ((II.getInlineStack Addr).getD []))

theorem readsBack {tail : List UInt8} {le : Bool} (h : encode le II BaseAddr = some (.ok bytes)) :
    ReadsBack ⟨bytes ++ tail, le⟩ BaseAddr bytes.length II := by
  have hat : DataExtractor.At ⟨bytes ++ tail, le⟩ 0 bytes := ⟨tail, rfl⟩
  have hturns : bytes.length ≤ (bytes ++ tail).length + 1 := by
    rw [List.length_append]
    omega
  have hdecode := decodeAt_encode (d := ⟨bytes ++ tail, le⟩) II h hat hturns
  rw [Nat.zero_add] at hdecode
  refine ⟨?_, hdecode, ?_⟩
  · rw [decode, hdecode]
    rfl
  · have hskip := skip_encode (d := ⟨bytes ++ tail, le⟩) h hat hturns
    rwa [Nat.zero_add] at hskip

theorem looksUp {tail : List UInt8} {le : Bool} (h : encode le II BaseAddr = some (.ok bytes))
    (hroot : Concrete GR II) : LooksUp GR ⟨bytes ++ tail, le⟩ BaseAddr II := by
  intro Addr locs back
  have hat : DataExtractor.At ⟨bytes ++ tail, le⟩ 0 bytes := ⟨tail, rfl⟩
  have hlen : bytes.length ≤ (bytes ++ tail).length := by
    rw [List.length_append]
    omega
  unfold lookup
  cases hin : II.Ranges.containsAddr Addr with
  | false =>
    have hout := lookupAt_outside GR Addr (d := ⟨bytes ++ tail, le⟩) (s := ⟨0, locs ++ [back], none⟩)
      h hat (hlen.trans (Nat.le_succ _)) hin
    have hstack : II.getInlineStack Addr = none := by
      obtain ⟨Name, CallFile, CallLine, Ranges, Children⟩ := II
      have houtside : Ranges.containsAddr Addr = false := hin
      simp [getInlineStack, getInlineStackHelper, houtside]
    rw [hout, hstack, if_neg (by simp)]
    rfl
  | true =>
    obtain ⟨Offset, rest, hchain, hrest, hle, hinside⟩ := lookupAt_inside GR Addr
      (d := ⟨bytes ++ tail, le⟩) (s := ⟨0, locs ++ [back], none⟩) h hat
      (hlen.trans (Nat.le_succ _)) hin
    have hdown : ∀ Child ∈ II.Children, GoesDown GR ⟨bytes ++ tail, le⟩ Addr Child :=
      fun Child hChild => lookupAt_inlined Addr (hroot.children Child hChild)
    obtain ⟨path, Offset', hpath, hloop⟩ := lookupChain Addr hdown hchain
      (s := ⟨Offset, locs ++ [back], none⟩) hrest hle rfl
    have hstack : (II.getInlineStack Addr).getD [] = path := by
      obtain ⟨Name, CallFile, CallLine, Ranges, Children⟩ := II
      have hinside : Ranges.containsAddr Addr = true := hin
      have hname : Name = 0 := hroot.unnamed
      have hnil := hpath []
      simp only at hnil
      cases path with
      | nil => simp [getInlineStack, getInlineStackHelper, hinside, hname, hnil]
      | cons J path => simp [getInlineStack, getInlineStackHelper, hinside, hname, hnil]
    simp only at hinside
    rw [hinside, hloop, hstack, Option.bind_some, finishLookup]
    cases hfile : GR.getFile II.CallFile with
    | none => simp
    | some e =>
      have hentry : ¬(e.Dir ≠ 0 ∨ e.Base ≠ 0) := fun hne => hroot.unresolved ⟨e, hfile, hne⟩
      simp only
      rw [pushCaller, if_neg hentry, if_neg (by simp)]
      rfl

def sampleFunction : InlineInfo :=
  ⟨0, 0, 0, AddressRanges.empty.insert ⟨16, 48, by decide, by decide⟩,
    [⟨5, 1, 7, AddressRanges.empty.insert ⟨20, 24, by decide, by decide⟩, []⟩]⟩

def sampleReader : GsymReader := ⟨[⟨0, 0⟩, ⟨1, 3⟩], [0, 100, 0, 102, 0, 103, 0]⟩

end SmlnjLlvm.Gsym.InlineInfo
