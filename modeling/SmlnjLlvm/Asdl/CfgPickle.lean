import SmlnjLlvm.Asdl.Options
import SmlnjLlvm.Asdl.Truncation

/-!
# Pickles of compilation units

The writers and readers of the types of the CFG follow one scheme: a tag of one
byte where the type is a sum, then the fields in their order. The table below
gives the fields; an enumerator is its number, which the readers do not check.
-/

namespace SmlnjLlvm.CfgPickle

open ByteDecoder Asdl

/-- What is read without another type of the CFG. -/
inductive Atom where
  | shape (s : Shape)
  | tag8
  | bool
  | integerOption

@[reducible] def Atom.Val : Atom → Type
  | shape s => s.Out
  | tag8 => Nat
  | bool => Bool
  | integerOption => Option Integer

def Atom.read : (a : Atom) → Reader a.Val
  | shape s => s.read
  | tag8 => readTag8
  | bool => readBool
  | integerOption => readIntegerOption

/-- The bytes that are written for a value; the value is given as it is read. -/
def Atom.Writes : (a : Atom) → a.Val → Bytes → Prop
  | shape s, out, bytes => ∃ v, s.InRange v ∧ s.write v = some bytes ∧ s.decoded v = out
  | tag8, e, bytes => e < 256 ∧ writeTag8 e = bytes
  | bool, b, bytes => writeBool b = bytes
  | integerOption, none, bytes => writeTag8 0 = bytes
  | integerOption, some z, bytes => ∃ digits, IntegerEncoding digits ∧
      Integer.ofEncoding digits = z ∧ writeTag8 1 ++ digits = bytes

inductive AstTy where
  | c_type | c_proto
  | raw_ty | alloc | arith | pure | looker | setter | branch
  | ty | exp | param | stm | frag | attrs | cluster | comp_unit
  deriving DecidableEq, Repr

/-- A field of a constructor, or a run of `read` calls. -/
inductive Field where
  | atom (a : Atom)
  | one (T : AstTy)
  | seq (T : AstTy)

namespace AstTy

/-- The type has a tag, and this name in the errors about it. -/
def sumName : AstTy → Option String
  | c_type => "c_type"
  | alloc => "alloc"
  | arith => "arith"
  | pure => "pure"
  | looker => "looker"
  | setter => "setter"
  | branch => "branch"
  | ty => "ty"
  | exp => "exp"
  | stm => "stm"
  | _ => none

abbrev base (t : Ty) : Field := .atom (.shape (.base t))
abbrev int : Field := base .int
abbrev lvar : Field := .atom (.shape .lvar)
abbrev integer : Field := .atom (.shape .integer)
abbrev enum : Field := .atom .tag8
abbrev bool : Field := .atom .bool

/-- The fields of the constructors, in the order of the tags. -/
def constructors : AstTy → List (List Field)
  -- void, float, double, long double, unsigned, signed, pointer, array, struct, union
  | c_type => [[], [], [], [], [enum], [enum], [], [.one c_type, int], [.seq c_type], [.seq c_type]]
  | c_proto => [[base .string, .one c_type, .seq c_type]]
  | raw_ty => [[enum, int]]
  -- SPECIAL, RECORD, RAW_RECORD, RAW_ALLOC
  | alloc => [[], [integer, bool], [integer, int, .seq raw_ty], [.atom .integerOption, int, int]]
  -- ARITH, FLOAT_TO_INT
  | arith => [[enum, int], [enum, int, int]]
  -- PURE_ARITH, EXTEND, TRUNC, INT_TO_FLOAT, FLOAT_TO_BITS, BITS_TO_FLOAT, the subscripts, RAW_SELECT
  | pure => [[enum, int], [bool, int, int], [int, int], [int, int], [int], [int], [], [enum, int],
      [enum, int, int]]
  -- DEREF, SUBSCRIPT, RAW_SUBSCRIPT, RAW_LOAD, GET_HDLR, GET_VAR
  | looker => [[], [], [enum, int], [enum, int], [], []]
  -- UNBOXED_UPDATE, UPDATE, UNBOXED_ASSIGN, ASSIGN, RAW_UPDATE, RAW_STORE, SET_HDLR, SET_VAR
  | setter => [[], [], [], [], [enum, int], [enum, int], [], []]
  -- CMP, FCMP, FSGN, PEQL, PNEQ, LIMIT
  | branch => [[enum, bool, int], [enum, int], [int], [], [], [base .uint]]
  -- LABt, PTRt, TAGt, NUMt, FLTt
  | ty => [[], [], [], [int], [int]]
  -- VAR, LABEL, NUM, LOOKER, PURE, SELECT
  | exp => [[lvar], [lvar], [integer, int], [.one looker, .seq exp], [.one pure, .seq exp],
      [int, .one exp]]
  | param => [[lvar, .one ty]]
  -- LET, ALLOC, APPLY, THROW, GOTO, SWITCH, BRANCH, ARITH, SETTER, CALLGC, RCC
  | stm => [[.one exp, .one param, .one stm], [.one alloc, .seq exp, lvar, .one stm],
      [.one exp, .seq exp, .seq ty], [.one exp, .seq exp, .seq ty], [lvar, .seq exp],
      [.one exp, .seq stm], [.one branch, .seq exp, int, .one stm, .one stm],
      [.one arith, .seq exp, .one param, .one stm], [.one setter, .seq exp, .one stm],
      [.seq exp, .atom (.shape .lvarSeq), .one stm],
      [bool, base .string, .one c_proto, .seq exp, .seq param, .seq param, .one stm]]
  | frag => [[enum, lvar, .seq param, .one stm]]
  | attrs => [[int, bool, bool, bool]]
  | cluster => [[.one attrs, .seq frag]]
  | comp_unit => [[base .string, .one cluster, .seq cluster]]

/-- The fields after a tag; a product is its first and only constructor. -/
def fields (T : AstTy) (tag : Nat) : Option (List Field) :=
  if tag = 0 then none else T.constructors[tag - 1]?

theorem fields_bounds {T : AstTy} {tag : Nat} {fs : List Field} (h : T.fields tag = some fs) :
    tag < 256 ∧ (T.sumName = none → tag = 1) := by
  have hlength : T.constructors.length ≤ 11 ∧ (T.sumName = none → T.constructors.length = 1) := by
    cases T <;> decide
  unfold fields at h
  split at h
  · cases h
  · have hlt := (List.getElem?_eq_some_iff.mp h).1
    exact ⟨by omega, fun hproduct => by have hone := hlength.2 hproduct; omega⟩

end AstTy

/-- What the readers build. -/
inductive Tree where
  | atom (a : Atom) (v : a.Val)
  | node (T : AstTy) (tag : Nat) (args : List Tree)
  | seq (items : List Tree)

/-! ## Reading -/

/-- `none` is a recursion deeper than its bound. -/
abbrev Parser := Decoder (Option DecodeError)

def lift (p : Reader α) : Parser α := fun s => (p s).mapError some

def readFields (read : Field → Parser Tree) : List Field → Parser (List Tree)
  | [] => pure []
  | f :: fs => do
      let t ← read f
      let ts ← readFields read fs
      pure (t :: ts)

def read : Nat → Field → Parser Tree
  | 0, _ => fun _ => .error none
  | _ + 1, .atom a => do
      let v ← lift a.read
      pure (.atom a v)
  | depth + 1, .one T => do
      let tag ← lift (if T.sumName.isSome then readTag8 else pure 1)
      match T.fields tag with
      | some fs => do
          let args ← readFields (read depth) fs
          pure (.node T tag args)
      | none => lift (invalidTag tag (T.sumName.getD ""))
  | depth + 1, .seq T => do
      let len ← lift readUint
      let items ← readMany (read depth (.one T)) len
      pure (.seq items)

/-! ## Writing -/

/-- The bytes that are written for a run of fields. -/
inductive Pickle : List Field → List Tree → Bytes → Prop
  | nil : Pickle [] [] []
  | atom {a v fs ts xs ys} (hv : a.Writes v xs) (h : Pickle fs ts ys) :
      Pickle (.atom a :: fs) (.atom a v :: ts) (xs ++ ys)
  | node {T tag args' args fs ts xs ys} (hfields : T.fields tag = some args')
      (hargs : Pickle args' args xs) (h : Pickle fs ts ys) :
      Pickle (.one T :: fs) (.node T tag args :: ts)
        (((if T.sumName.isSome then writeTag8 tag else []) ++ xs) ++ ys)
  | seq {T items len fs ts xs ys} (hlen : writeUint items.length = some len)
      (hitems : Pickle (List.replicate items.length (.one T)) items xs) (h : Pickle fs ts ys) :
      Pickle (.seq T :: fs) (.seq items :: ts) ((len ++ xs) ++ ys)

theorem Atom.decodes {a : Atom} {v : a.Val} {bytes : Bytes} (h : a.Writes v bytes) :
    Decodes a.read bytes v := by
  cases a with
  | shape s =>
    obtain ⟨w, hrange, hwrite, rfl⟩ := h
    exact (s.element hrange hwrite).decodes
  | tag8 =>
    obtain ⟨hlt, rfl⟩ := h
    exact readTag8_decodes hlt
  | bool =>
    obtain rfl := h
    exact readBool_decodes v
  | integerOption =>
    cases v with
    | none =>
      obtain rfl := h
      exact (readTag8_decodes (by decide)).bind (Decodes.pure none)
    | some z =>
      obtain ⟨digits, hdigits, rfl, rfl⟩ := h
      exact (readTag8_decodes (by decide)).bind ((readInteger_decodes hdigits).map _)

theorem decodes_lift {p : Reader α} {bytes : Bytes} {v : α} (h : Decodes p bytes v) :
    Decodes (lift p) bytes v := by
  intro tail
  rw [lift, h tail]
  rfl

theorem readFields_replicate (read : Field → Parser Tree) (n : Nat) (f : Field) :
    readFields read (List.replicate n f) = readMany (read f) n := by
  induction n with
  | zero => rfl
  | succ n ih => rw [List.replicate_succ, readFields, readMany, ih]

theorem Pickle.decodes {fs : List Field} {ts : List Tree} {bytes : Bytes} (h : Pickle fs ts bytes) :
    ∃ depth, ∀ fuel, depth ≤ fuel → Decodes (readFields (read fuel) fs) bytes ts := by
  induction h with
  | nil => exact ⟨0, fun _ _ => Decodes.pure []⟩
  | atom hv _ ih =>
    obtain ⟨depth, ih⟩ := ih
    refine ⟨depth + 1, fun fuel hfuel => ?_⟩
    obtain ⟨k, rfl⟩ : ∃ k, fuel = k + 1 := ⟨fuel - 1, by omega⟩
    exact ((decodes_lift (Atom.decodes hv)).map _).bind ((ih _ (by omega)).map _)
  | @node T tag _ _ _ _ _ _ hfields _ _ ihargs ih =>
    obtain ⟨depth, ih⟩ := ih
    obtain ⟨depth', ihargs⟩ := ihargs
    refine ⟨max depth depth' + 1, fun fuel hfuel => ?_⟩
    obtain ⟨k, rfl⟩ : ∃ k, fuel = k + 1 := ⟨fuel - 1, by omega⟩
    obtain ⟨hlt, hone⟩ := AstTy.fields_bounds hfields
    have htag : Decodes (if T.sumName.isSome then readTag8 else pure 1 : Reader Nat)
        (if T.sumName.isSome then writeTag8 tag else []) tag := by
      split
      · exact readTag8_decodes hlt
      · next hproduct =>
        rw [hone (by simpa using hproduct)]
        exact Decodes.pure 1
    refine ((decodes_lift htag).bind ?_).bind ((ih _ (by omega)).map _)
    rw [hfields]
    exact (ihargs k (by omega)).map _
  | seq hlen _ _ ihitems ih =>
    obtain ⟨depth, ih⟩ := ih
    obtain ⟨depth', ihitems⟩ := ihitems
    refine ⟨max depth depth' + 1, fun fuel hfuel => ?_⟩
    obtain ⟨k, rfl⟩ : ∃ k, fuel = k + 1 := ⟨fuel - 1, by omega⟩
    have hitems := ihitems k (by omega)
    rw [readFields_replicate] at hitems
    exact ((decodes_lift (readUint_decodes hlen)).bind (hitems.map _)).bind ((ih _ (by omega)).map _)

/-- A pickle is read back whatever follows it, and no pickle goes on after another one. -/
theorem pickle_roundTrips {fs : List Field} {ts : List Tree} {bytes : Bytes}
    (h : Pickle fs ts bytes) :
    (∃ depth, ∀ fuel, depth ≤ fuel → ∀ tail,
      readFields (read fuel) fs (.start (bytes ++ tail)) = .ok (ts, .start tail)) ∧
    ∀ ts' tail, Pickle fs ts' (bytes ++ tail) → tail = [] ∧ ts' = ts := by
  obtain ⟨depth, hd⟩ := h.decodes
  refine ⟨⟨depth, hd⟩, fun ts' tail h' => ?_⟩
  obtain ⟨depth', hd'⟩ := h'.decodes
  obtain ⟨htail, hts⟩ := (hd _ (Nat.le_max_left _ _)).prefix_free (hd' _ (Nat.le_max_right _ _)) rfl
  exact ⟨htail, hts.symm⟩

/-- `GOTO 300 [VAR 7]`. -/
theorem pickle_roundTrips_goto : ∃ t bytes depth, Pickle [.one .stm] [t] bytes ∧
    readFields (read depth) [.one .stm] (.start bytes) = .ok ([t], .start []) := by
  have hlvar (id : Nat) (h : id < 2 ^ 61) : (Atom.shape .lvar).Writes _ _ := ⟨id, h, rfl, rfl⟩
  have hvar : Pickle [.one .exp] _ _ := @Pickle.node _ 1 _ _ _ _ _ _ rfl
    (.atom (hlvar 7 (by decide)) .nil) .nil
  have hgoto : Pickle [.one .stm] _ _ := @Pickle.node _ 5 _ _ _ _ _ _ rfl
    (.atom (hlvar 300 (by decide)) (@Pickle.seq _ [_] _ _ _ _ _ rfl hvar .nil)) .nil
  obtain ⟨⟨depth, hread⟩, -⟩ := pickle_roundTrips hgoto
  exact ⟨_, _, depth, hgoto, by simpa using hread depth (Nat.le_refl _) []⟩

end SmlnjLlvm.CfgPickle
