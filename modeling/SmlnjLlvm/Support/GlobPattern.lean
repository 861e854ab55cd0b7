import SmlnjLlvm.Library.Loop
import SmlnjLlvm.Library.Wildcards

/-!
# Glob patterns

`GlobPattern` expands the braces of a pattern, parses the brackets of what results and
matches from left to right, going back to the last star.
-/

namespace SmlnjLlvm.Glob

open Loop Wildcards

abbrev Bytes := List UInt8

def byte (c : Char) : UInt8 := UInt8.ofNat c.toNat

inductive GlobError where
  /-- `invalid glob pattern: ` and the pattern -/
  | invalid (Original : Bytes)
  /-- `invalid glob pattern, unmatched '['` -/
  | unmatchedBracket
  /-- `invalid glob pattern, stray '\'` -/
  | strayBackslash
  /-- `nested brace expansions are not supported` -/
  | nestedBraces
  /-- `empty or singleton brace expansions are not supported` -/
  | emptyBraces
  /-- `incomplete brace expansion` -/
  | incompleteBraces
  /-- `too many brace expansions` -/
  | tooManyBraces
  deriving DecidableEq

/-- `Expected`; there is no value when a loop does not end or an index is out of range. -/
abbrev Expected (α : Type) := ExceptT GlobError Option α

/-- The first place of the character at or after `From`. -/
def find (S : Bytes) (C : UInt8) (From : ℕ) : Option ℕ := ((S.drop From).idxOf? C).map (From + ·)

/-- The bitmap with the characters and ranges added; a range must be ordered. -/
def expand : Bytes → (UInt8 → Bool) → Option (UInt8 → Bool)
  | Start :: d :: End :: S, BV =>
    if d ≠ byte '-' then expand (d :: End :: S) fun C => BV C || C == Start
    else if Start > End then none
    else expand S fun C => BV C || (Start ≤ C && C ≤ End)
  | S, BV => some fun C => BV C || S.contains C

/-! ## Braces -/

structure BraceExpansion where
  Start : ℕ
  Length : ℕ
  Terms : List Bytes

/-- The finished expansions, and the start and terms of the current one. -/
structure BraceState where
  I : ℕ
  BraceExpansions : List BraceExpansion
  CurrentBE : Option (ℕ × List Bytes)
  TermBegin : ℕ

/-- The characters from `a` up to `b`. -/
def slice (S : Bytes) (a b : ℕ) : Bytes := (S.drop a).take (b - a)

def braceTurn (S : Bytes) (s : BraceState) :
    Option (Turn BraceState (Except GlobError (List BraceExpansion))) :=
  if s.I = S.length then
    some (.exit (if s.CurrentBE.isSome then .error .incompleteBraces else .ok s.BraceExpansions))
  else do
    let C ← S[s.I]?
    if C = byte '[' then
      match find S (byte ']') (s.I + 2) with
      | none => some (.exit (.error .unmatchedBracket))
      | some I => some (.next { s with I := I + 1 })
    else if C = byte '{' then
      if s.CurrentBE.isSome then some (.exit (.error .nestedBraces))
      else some (.next { s with I := s.I + 1, CurrentBE := some (s.I, []), TermBegin := s.I + 1 })
    else if C = byte ',' then
      match s.CurrentBE with
      | none => some (.next { s with I := s.I + 1 })
      | some (Start, Terms) =>
        some (.next { s with
          I := s.I + 1
          CurrentBE := some (Start, Terms ++ [slice S s.TermBegin s.I])
          TermBegin := s.I + 1 })
    else if C = byte '}' then
      match s.CurrentBE with
      | none => some (.next { s with I := s.I + 1 })
      | some (Start, Terms) =>
        if Terms = [] then some (.exit (.error .emptyBraces))
        else
          let BE := ⟨Start, s.I - Start + 1, Terms ++ [slice S s.TermBegin s.I]⟩
          some (.next { s with
            I := s.I + 1
            BraceExpansions := s.BraceExpansions ++ [BE]
            CurrentBE := none })
    else if C = byte '\\' then
      if s.I + 1 = S.length then some (.exit (.error .strayBackslash))
      else some (.next { s with I := s.I + 2 })
    else some (.next { s with I := s.I + 1 })

/-- The product of the numbers of terms, in a `size_t`. -/
def countSubPatterns : List BraceExpansion → ℕ → ℕ
  | [], NumSubPatterns => NumSubPatterns
  | BE :: rest, NumSubPatterns =>
    if NumSubPatterns > (2 ^ 64 - 1) / BE.Terms.length then 2 ^ 64 - 1
    else countSubPatterns rest (NumSubPatterns * BE.Terms.length)

/-- Every pattern with each of the terms in place of the braces. -/
def replaceBraces (SubPatterns : List Bytes) (BE : BraceExpansion) : List Bytes :=
  BE.Terms.flatMap fun Term => SubPatterns.map fun Orig =>
    Orig.take BE.Start ++ Term ++ Orig.drop (BE.Start + BE.Length)

def parseBraceExpansions (S : Bytes) (MaxSubPatterns : Option ℕ) : Expected (List Bytes) :=
  match MaxSubPatterns with
  | none => pure [S]
  | some Max =>
    if byte '{' ∉ S then pure [S]
    else do
      let BraceExpansions ← ExceptT.mk (loop (braceTurn S) (S.length + 1) ⟨0, [], none, 0⟩)
      if countSubPatterns BraceExpansions 1 > Max then throw .tooManyBraces
      else pure (BraceExpansions.reverse.foldl replaceBraces [S])

/-! ## Brackets -/

structure Bracket where
  NextOffset : ℕ
  Bytes : UInt8 → Bool

structure SubGlobPattern where
  Pat : Bytes
  Brackets : List Bracket

/-- A turn at the index `I`. -/
def createTurn (S : Bytes) : ℕ × List Bracket →
    Option (Turn (ℕ × List Bracket) (Except GlobError SubGlobPattern))
  | (I, Brackets) =>
    if I = S.length then some (.exit (.ok ⟨S, Brackets⟩))
    else do
      let C ← S[I]?
      if C = byte '[' then
        match find S (byte ']') (I + 2) with
        | none => some (.exit (.error .unmatchedBracket))
        | some J => do
            let Chars := slice S (I + 1) J
            let first ← S[I + 1]?
            let Invert := first = byte '^' ∨ first = byte '!'
            match expand (if Invert then Chars.drop 1 else Chars) fun _ => false with
            | none => some (.exit (.error (.invalid S)))
            | some BV =>
              let BV := if Invert then fun C => !BV C else BV
              some (.next (J + 1, Brackets ++ [⟨J + 1, BV⟩]))
      else if C = byte '\\' then
        if I + 1 = S.length then some (.exit (.error .strayBackslash))
        else some (.next (I + 2, Brackets))
      else some (.next (I + 1, Brackets))

namespace SubGlobPattern

def create (S : Bytes) : Expected SubGlobPattern :=
  ExceptT.mk (loop (createTurn S) (S.length + 1) (0, []))

/-- The pointers of `match`, as indices. -/
structure MatchState where
  P : ℕ
  S : ℕ
  SegmentBegin : Option ℕ
  SavedS : ℕ
  B : ℕ
  SavedB : ℕ

def backtrack (s : MatchState) : Turn MatchState Bool :=
  match s.SegmentBegin with
  | none => .exit false
  | some P => .next { s with P, S := s.SavedS + 1, SavedS := s.SavedS + 1, B := s.SavedB }

def matchTurn (G : SubGlobPattern) (Str : Bytes) (s : MatchState) :
    Option (Turn MatchState Bool) :=
  if s.S = Str.length then some (.exit ((G.Pat.drop s.P).all (· == byte '*')))
  else if s.P = G.Pat.length then some (backtrack s)
  else do
    let p ← G.Pat[s.P]?
    let C ← Str[s.S]?
    if p = byte '*' then
      some (.next { s with
        P := s.P + 1, SegmentBegin := some (s.P + 1), SavedS := s.S, SavedB := s.B })
    else if p = byte '[' then do
      let Bracket ← G.Brackets[s.B]?
      if Bracket.Bytes C then
        some (.next { s with P := Bracket.NextOffset, S := s.S + 1, B := s.B + 1 })
      else some (backtrack s)
    else if p = byte '\\' then do
      let q ← G.Pat[s.P + 1]?
      if q = C then some (.next { s with P := s.P + 2, S := s.S + 1 }) else some (backtrack s)
    else if p = C ∨ p = byte '?' then some (.next { s with P := s.P + 1, S := s.S + 1 })
    else some (backtrack s)

/-- `match`; the turns are bounded by the pairs of positions. -/
def matchBytes (G : SubGlobPattern) (Str : Bytes) : Option Bool :=
  loop (matchTurn G Str) ((Str.length + 1) * (G.Pat.length + 1)) ⟨0, 0, none, 0, 0, 0⟩

end SubGlobPattern

/-! ## Patterns -/

/-- A prefix without metacharacters, and what the rest expands to. -/
structure GlobPattern where
  Prefix : Bytes
  SubGlobs : List SubGlobPattern

namespace GlobPattern

def createSubGlobs : List Bytes → Expected (List SubGlobPattern)
  | [] => pure []
  | SubPat :: SubPats => do
      let SubGlob ← SubGlobPattern.create SubPat
      let SubGlobs ← createSubGlobs SubPats
      return SubGlob :: SubGlobs

/-- The characters of `?*[{\`. -/
def isMeta (C : UInt8) : Bool :=
  [byte '?', byte '*', byte '[', byte '{', byte '\\'].contains C

def create (S : Bytes) (MaxSubPatterns : Option ℕ) : Expected GlobPattern :=
  let Prefix := S.takeWhile fun C => !isMeta C
  let S := S.dropWhile fun C => !isMeta C
  if S = [] then pure { Prefix, SubGlobs := [] }
  else do
    let SubPats ← parseBraceExpansions S MaxSubPatterns
    let SubGlobs ← createSubGlobs SubPats
    return { Prefix, SubGlobs }

/-- The loop over the expanded patterns. -/
def matchAny (S : Bytes) : List SubGlobPattern → Option Bool
  | [] => some false
  | Glob :: SubGlobs => do
      if ← Glob.matchBytes S then return true else matchAny S SubGlobs

def matchBytes (Pat : GlobPattern) (S : Bytes) : Option Bool :=
  if Pat.Prefix.isPrefixOf S then
    let S := S.drop Pat.Prefix.length
    if Pat.SubGlobs.isEmpty && S.isEmpty then some true else matchAny S Pat.SubGlobs
  else some false

end GlobPattern

/-! ## The language -/

abbrev Sequence := List (Token UInt8)

abbrev Parts := List (List Sequence)

/-- The bytes and ranges of a class. -/
def inClass : Bytes → UInt8 → Bool
  | a :: d :: z :: S, C =>
    if d = byte '-' then (a ≤ C && C ≤ z) || inClass S C else C == a || inClass (d :: z :: S) C
  | S, C => S.contains C

/-- A class that begins with `d`. -/
def bracketClass (d : UInt8) (chars : Bytes) : UInt8 → Bool :=
  if d = byte '^' ∨ d = byte '!' then fun C => !inClass chars C else inClass (d :: chars)

/-- The text of a token. -/
inductive IsToken : Bytes → Token UInt8 → Prop
  | star : IsToken [byte '*'] .star
  | any : IsToken [byte '?'] (.one fun _ => true)
  | escaped (c : UInt8) : IsToken [byte '\\', c] (.one (· == c))
  | bracket (d : UInt8) (chars : Bytes) (h : byte ']' ∉ chars) :
      IsToken (byte '[' :: d :: (chars ++ [byte ']'])) (.one (bracketClass d chars))
  | literal (c : UInt8) (h : c ∉ [byte '*', byte '?', byte '\\', byte '[']) :
      IsToken [c] (.one (· == c))

inductive Tokens : Bytes → Sequence → Prop
  | nil : Tokens [] []
  | cons {u v : Bytes} {t : Token UInt8} {ts : Sequence} (h : IsToken u t)
      (h' : Tokens v ts) : Tokens (u ++ v) (t :: ts)

/-- What follows an opening brace: the texts and tokens of terms between commas, up to
the closing brace. -/
inductive Terms : Bytes → List Bytes → List Sequence → Prop
  | close : Terms [byte '}'] [[]] [[]]
  | comma {v : Bytes} {texts : List Bytes} {terms : List Sequence}
      (h : Terms v texts terms) : Terms (byte ',' :: v) ([] :: texts) ([] :: terms)
  | token {u v text : Bytes} {t : Token UInt8} {ts : Sequence} {texts : List Bytes}
      {terms : List Sequence} (h : IsToken u t)
      (hu : u ∉ [[byte '{'], [byte ','], [byte '}']]) (h' : Terms v (text :: texts) (ts :: terms)) :
      Terms (u ++ v) ((u ++ text) :: texts) ((t :: ts) :: terms)

/-- A pattern is a sequence of tokens and, when braces are expanded, of lists of terms. -/
inductive Reads (braces : Bool) : Bytes → Parts → Prop
  | nil : Reads braces [] []
  | token {u v : Bytes} {t : Token UInt8} {parts : Parts}
      (h : IsToken u t) (hu : braces = true → u ≠ [byte '{']) (h' : Reads braces v parts) :
      Reads braces (u ++ v) ([[t]] :: parts)
  | brace {u v : Bytes} {texts : List Bytes} {terms : List Sequence}
      {parts : Parts} (hbraces : braces = true)
      (h : Terms u texts terms) (htwo : 2 ≤ texts.length) (h' : Reads braces v parts) :
      Reads braces (byte '{' :: (u ++ v)) (terms :: parts)

/-! ## Results -/

/-- The computation ends, and a value it returns has the property. -/
def Returns {α : Type} (x : Expected α) (Q : α → Prop) : Prop :=
  ∃ r, x.run = some r ∧ ∀ a, r = .ok a → Q a

theorem Returns.pure {α : Type} {a : α} {Q : α → Prop} (h : Q a) : Returns (pure a) Q :=
  ⟨.ok a, rfl, fun _ ha => Except.ok.inj ha ▸ h⟩

theorem Returns.throw {α : Type} {e : GlobError} {Q : α → Prop} : Returns (throw e) Q :=
  ⟨.error e, rfl, fun _ ha => nomatch ha⟩

theorem Returns.bind {α β : Type} {x : Expected α} {f : α → Expected β} {P : α → Prop}
    {Q : β → Prop} (h : Returns x P) (hf : ∀ a, P a → Returns (f a) Q) : Returns (x >>= f) Q := by
  obtain ⟨r, hx, hr⟩ := h
  have hbind : (x >>= f).run = x.run.bind (ExceptT.bindCont f) := rfl
  cases r with
  | error e => exact ⟨.error e, by rw [hbind, hx]; rfl, fun _ ha => nomatch ha⟩
  | ok a =>
    obtain ⟨r', hrun, hr'⟩ := hf a (hr a rfl)
    exact ⟨r', by rw [hbind, hx]; exact hrun, hr'⟩

theorem exit_error {σ α : Type} {turn : Option (Turn σ (Except GlobError α))} {e : GlobError}
    {P : σ → Prop} {Q : α → Prop} (h : turn = some (.exit (.error e))) :
    ∃ t, turn = some t ∧ t.Sat P fun r => ∀ a, r = .ok a → Q a :=
  ⟨_, h, fun _ ha => nomatch ha⟩

/-! ## Readings are unique -/

variable {S u u' v v' : Bytes} {C c : UInt8} {I I' J : ℕ} {t t' : Token UInt8} {ts ts' : Sequence}
  {texts : List Bytes} {terms : List Sequence} {parts : Parts} {braces : Bool}

theorem split_unique (h : C ∉ u) (h' : C ∉ u') (heq : u ++ C :: v = u' ++ C :: v') :
    u = u' ∧ v = v' := by
  induction u generalizing u' with
  | nil =>
    cases u' with
    | nil => simpa using heq
    | cons c' u' =>
      obtain ⟨rfl, -⟩ := List.cons.inj heq
      exact absurd List.mem_cons_self h'
  | cons c u ih =>
    cases u' with
    | nil =>
      obtain ⟨rfl, -⟩ := List.cons.inj heq
      exact absurd List.mem_cons_self h
    | cons c' u' =>
      obtain ⟨rfl, htail⟩ := List.cons.inj heq
      obtain ⟨rfl, rfl⟩ := ih (List.not_mem_of_not_mem_cons h)
        (List.not_mem_of_not_mem_cons h') htail
      exact ⟨rfl, rfl⟩

theorem IsToken.unique (h : IsToken u t) (h' : IsToken u' t') (heq : u ++ v = u' ++ v') :
    u = u' ∧ t = t' ∧ v = v' := by
  cases h <;> cases h' <;> simp_all [byte]
  case bracket.bracket h h' =>
    obtain ⟨rfl, hchars⟩ := heq
    obtain ⟨rfl, rfl⟩ := split_unique h h' hchars
    simp

theorem IsToken.eq_single {w : Bytes} (h : IsToken u t) (heq : u ++ v = c :: w)
    (hc : c ≠ byte '[' ∧ c ≠ byte '\\') : u = [c] := by
  cases h <;> simp_all

theorem IsToken.ne_nil (h : IsToken u t) : u ≠ [] := by
  cases h <;> simp

theorem Tokens.unique (h : Tokens u ts) (h' : Tokens u ts') : ts = ts' := by
  induction h generalizing ts' with
  | nil =>
    generalize hu : ([] : Bytes) = u at h'
    cases h' with
    | nil => rfl
    | cons h => simp [h.ne_nil] at hu
  | @cons u v t ts h _ ih =>
    generalize hw : u ++ v = w at h'
    cases h' with
    | nil => simp [h.ne_nil] at hw
    | cons h'' h' =>
      obtain ⟨rfl, rfl, rfl⟩ := h.unique h'' hw
      rw [ih h']

theorem Terms.unique {texts' : List Bytes} {terms' : List Sequence} (h : Terms u texts terms)
    (h' : Terms u' texts' terms') (heq : u ++ v = u' ++ v') :
    u = u' ∧ texts = texts' ∧ terms = terms' ∧ v = v' := by
  induction h generalizing u' texts' terms' with
  | close =>
    cases h' with
    | close => simpa using heq
    | comma => simp [byte] at heq
    | token h hu =>
      rw [List.append_assoc] at heq
      simp [h.eq_single heq.symm (by decide)] at hu
  | comma _ ih =>
    cases h' with
    | close => simp [byte] at heq
    | comma h' =>
      obtain ⟨rfl, rfl, rfl, rfl⟩ := ih h' (List.cons.inj heq).2
      simp
    | token h hu =>
      rw [List.append_assoc] at heq
      simp [h.eq_single heq.symm (by decide)] at hu
  | token h hu _ ih =>
    rw [List.append_assoc] at heq
    cases h' with
    | close => simp [h.eq_single heq (by decide)] at hu
    | comma => simp [h.eq_single heq (by decide)] at hu
    | token h'' _ h' =>
      rw [List.append_assoc] at heq
      obtain ⟨rfl, rfl, heq⟩ := h.unique h'' heq
      obtain ⟨rfl, htexts, hterms, rfl⟩ := ih h' heq
      simp_all

theorem Reads.unique {parts' : Parts} (h : Reads braces u parts) (h' : Reads braces u parts') :
    parts = parts' := by
  induction h generalizing parts' with
  | nil =>
    generalize hu : ([] : Bytes) = u at h'
    cases h' with
    | nil => rfl
    | token h => simp [h.ne_nil] at hu
    | brace => cases hu
  | @token u v _ _ h hbrace _ ih =>
    generalize hw : u ++ v = w at h'
    cases h' with
    | nil => simp [h.ne_nil] at hw
    | token h'' _ h' =>
      obtain ⟨rfl, rfl, rfl⟩ := h.unique h'' hw
      rw [ih h']
    | brace hbraces => exact absurd (h.eq_single hw (by decide)) (hbrace hbraces)
  | @brace u v _ _ _ hbraces h _ _ ih =>
    generalize hw : byte '{' :: (u ++ v) = w at h'
    cases h' with
    | nil => cases hw
    | token h'' hbrace h' => exact absurd (h''.eq_single hw.symm (by decide)) (hbrace hbraces)
    | brace _ h'' _ h' =>
      obtain ⟨rfl, -, rfl, rfl⟩ := h.unique h'' (List.cons.inj hw).2
      rw [ih h']

/-! ## Tokens at an index -/

theorem idxOf?_split {n : ℕ} (h : S.idxOf? C = some n) :
    ∃ u v, S = u ++ C :: v ∧ C ∉ u ∧ u.length = n := by
  induction S generalizing n with
  | nil => simp at h
  | cons c S ih =>
    rw [List.idxOf?_cons] at h
    by_cases hc : c = C
    · simp only [hc, beq_self_eq_true, if_true, Option.some.injEq] at h
      exact ⟨[], S, by simp [hc], by simp, h⟩
    · simp only [hc, beq_iff_eq, if_false, Option.map_eq_some_iff] at h
      obtain ⟨m, hm, rfl⟩ := h
      obtain ⟨u, v, rfl, hu, rfl⟩ := ih hm
      exact ⟨c :: u, v, rfl, by simp [hu, Ne.symm hc], rfl⟩

theorem find_spec {From : ℕ} (h : find S C From = some J) :
    ∃ u, C ∉ u ∧ S.drop From = u ++ C :: S.drop (J + 1) ∧ J = From + u.length := by
  obtain ⟨n, hn, rfl⟩ := Option.map_eq_some_iff.mp h
  obtain ⟨u, v, hS, hu, rfl⟩ := idxOf?_split hn
  have hv : S.drop (From + u.length + 1) = v := by
    rw [Nat.add_assoc, ← List.drop_drop, hS, List.drop_append]
    simp
  exact ⟨u, hu, by rw [hv, hS], rfl⟩

theorem drop_eq_cons {α : Type} {S : List α} {C : α} (h : S[I]? = some C) :
    S.drop I = C :: S.drop (I + 1) := by
  obtain ⟨hI, rfl⟩ := List.getElem?_eq_some_iff.mp h
  exact List.drop_eq_getElem_cons hI

theorem exists_getElem? {α : Type} {S : List α} (hI : I ≤ S.length) (hne : I ≠ S.length) :
    ∃ C, S[I]? = some C := ⟨_, List.getElem?_eq_getElem (by omega : I < S.length)⟩

/-- The token's text is what lies between the two indices. -/
def TokenAt (S : Bytes) (I I' : ℕ) (u : Bytes) (t : Token UInt8) : Prop :=
  IsToken u t ∧ S.drop I = u ++ S.drop I' ∧ I' = I + u.length

theorem TokenAt.bounds (h : TokenAt S I I' u t) (hI : I ≤ S.length) : I < I' ∧ I' ≤ S.length := by
  obtain ⟨htoken, hdrop, rfl⟩ := h
  have hlen := congrArg List.length hdrop
  have hpos := List.length_pos_iff.mpr htoken.ne_nil
  simp only [List.length_drop, List.length_append] at hlen
  omega

theorem tokenAt_bracket (h : S[I]? = some (byte '[')) (hfind : find S (byte ']') (I + 2) = some J) :
    ∃ d chars, S[I + 1]? = some d ∧ slice S (I + 1) J = d :: chars ∧
      TokenAt S I (J + 1) (byte '[' :: d :: (chars ++ [byte ']'])) (.one (bracketClass d chars)) := by
  obtain ⟨chars, hchars, hdrop, rfl⟩ := find_spec hfind
  have hlt : I + 1 < S.length := by
    have hlen := congrArg List.length hdrop
    simp only [List.length_drop, List.length_append, List.length_cons] at hlen
    omega
  have hd := List.getElem?_eq_getElem hlt
  refine ⟨S[I + 1], chars, hd, ?_, .bracket _ _ hchars, ?_, ?_⟩
  · rw [slice, drop_eq_cons hd, hdrop, show I + 2 + chars.length - (I + 1) = chars.length + 1 by omega]
    simp
  · rw [drop_eq_cons h, drop_eq_cons hd, hdrop]
    simp
  · simp only [List.length_cons, List.length_append, List.length_nil]
    omega

theorem tokenAt_escaped (h : S[I]? = some (byte '\\')) (hc : S[I + 1]? = some c) :
    TokenAt S I (I + 2) [byte '\\', c] (.one (· == c)) :=
  ⟨.escaped c, by rw [drop_eq_cons h, drop_eq_cons hc]; rfl, rfl⟩

theorem tokenAt_single (h : S[I]? = some C) (htoken : IsToken [C] t) : TokenAt S I (I + 1) [C] t :=
  ⟨htoken, by rw [drop_eq_cons h]; rfl, rfl⟩

theorem exists_single (hbracket : C ≠ byte '[') (hescape : C ≠ byte '\\') : ∃ t, IsToken [C] t := by
  by_cases hstar : C = byte '*'
  · exact hstar ▸ ⟨_, .star⟩
  by_cases hany : C = byte '?'
  · exact hany ▸ ⟨_, .any⟩
  exact ⟨_, .literal C (by simp [*])⟩

/-! ## Brackets are found again -/

namespace SubGlobPattern

/-- The tokens that `match` reads from the position `P` when it is at the bracket `B`. -/
inductive Placed (G : SubGlobPattern) : ℕ → ℕ → Sequence → Prop
  | nil {P B : ℕ} (h : P = G.Pat.length) : Placed G P B []
  | star {P B : ℕ} {ts : Sequence} (h : G.Pat[P]? = some (byte '*'))
      (h' : Placed G (P + 1) B ts) : Placed G P B (.star :: ts)
  | any {P B : ℕ} {ts : Sequence} (h : G.Pat[P]? = some (byte '?'))
      (h' : Placed G (P + 1) B ts) : Placed G P B (.one (fun _ => true) :: ts)
  | escaped {P B : ℕ} {c : UInt8} {ts : Sequence} (h : G.Pat[P]? = some (byte '\\'))
      (hc : G.Pat[P + 1]? = some c) (h' : Placed G (P + 2) B ts) :
      Placed G P B (.one (· == c) :: ts)
  | bracket {P B : ℕ} {bracket : Bracket} {ts : Sequence}
      (h : G.Pat[P]? = some (byte '[')) (hB : G.Brackets[B]? = some bracket)
      (hP : P < bracket.NextOffset) (h' : Placed G bracket.NextOffset (B + 1) ts) :
      Placed G P B (.one bracket.Bytes :: ts)
  | literal {P B : ℕ} {c : UInt8} {ts : Sequence} (h : G.Pat[P]? = some c)
      (hc : c ∉ [byte '*', byte '?', byte '\\', byte '[']) (h' : Placed G (P + 1) B ts) :
      Placed G P B (.one (· == c) :: ts)

theorem Placed.le {G : SubGlobPattern} {P B : ℕ} (h : Placed G P B ts) : P ≤ G.Pat.length := by
  cases h with
  | nil h => exact Nat.le_of_eq h
  | star h | any h | escaped h | bracket h | literal h =>
    exact Nat.le_of_lt (List.getElem?_eq_some_iff.mp h).1

theorem Placed.all_star {G : SubGlobPattern} {P B : ℕ} (h : Placed G P B ts) :
    (G.Pat.drop P).all (· == byte '*') = true ↔ ∀ t ∈ ts, t = .star := by
  induction h with
  | nil h => simp [h]
  | star h _ ih => simpa [drop_eq_cons h] using ih
  | any h | escaped h | bracket h => simp [drop_eq_cons h, byte]
  | literal h hc =>
    simp only [List.mem_cons, not_or] at hc
    simp [drop_eq_cons h, hc.1]

theorem expand_eq {chars : Bytes} {BV BV' : UInt8 → Bool} (h : expand chars BV = some BV') :
    BV' = fun C => BV C || inClass chars C := by
  fun_induction expand chars BV with
  | case1 BV Start d End S hd ih =>
    rw [ih h]
    funext C
    rw [inClass, if_neg hd, Bool.or_assoc]
  | case2 => cases h
  | case3 BV Start d End S hd hle ih =>
    rw [ih h]
    funext C
    rw [inClass, if_pos (not_not.mp hd), Bool.or_assoc]
  | case4 S BV hS =>
    cases h
    funext C
    rw [inClass]
    exact hS

theorem bracketClass_eq {d : UInt8} {chars : Bytes} {BV : UInt8 → Bool}
    (h : expand (if d = byte '^' ∨ d = byte '!' then chars else d :: chars)
      (fun _ => false) = some BV) :
    (if d = byte '^' ∨ d = byte '!' then fun C => !BV C else BV) = bracketClass d chars := by
  rw [expand_eq h]
  by_cases hd : d = byte '^' ∨ d = byte '!' <;> simp [bracketClass, hd]

/-- What is read from an index on can be completed to a reading of the whole pattern. -/
def Completes (S : Bytes) : ℕ × List Bracket → Prop
  | (I, Brackets) => I ≤ S.length ∧ ∀ G ts, G.Pat = S → Brackets <+: G.Brackets →
      Placed G I Brackets.length ts → Tokens (S.drop I) ts → ∃ ts', Placed G 0 0 ts' ∧ Tokens S ts'

theorem Completes.turn {Brackets new : List Bracket} (h : Completes S (I, Brackets))
    (ht : TokenAt S I I' u t) (hplaced : ∀ G ts, G.Pat = S → Brackets ++ new <+: G.Brackets →
      Placed G I' (Brackets.length + new.length) ts → Placed G I Brackets.length (t :: ts)) :
    Completes S (I', Brackets ++ new) ∧ S.length - I' < S.length - I := by
  obtain ⟨hlt, hle⟩ := ht.bounds h.1
  refine ⟨⟨hle, ?_⟩, by omega⟩
  intro G ts hPat hBrackets hts htokens
  rw [List.length_append] at hts
  apply h.2 G (t :: ts) hPat ((List.prefix_append _ _).trans hBrackets)
  · exact hplaced G ts hPat hBrackets hts
  · rw [ht.2.1]
    exact .cons ht.1 htokens

theorem createTurn_spec {s : ℕ × List Bracket} (h : Completes S s) :
    ∃ t, createTurn S s = some t ∧
      t.Sat (fun s' => Completes S s' ∧ S.length - s'.1 < S.length - s.1) fun r =>
        ∀ G, r = .ok G → ∃ ts, Placed G 0 0 ts ∧ Tokens S ts := by
  obtain ⟨I, Brackets⟩ := s
  by_cases hend : I = S.length
  · refine ⟨_, by rw [createTurn, if_pos hend], ?_⟩
    intro G hG
    cases hG
    apply h.2 _ [] rfl List.prefix_rfl
    · exact .nil hend
    · rw [hend, List.drop_length]
      exact .nil
  obtain ⟨C, hC⟩ := exists_getElem? h.1 hend
  by_cases hbracket : C = byte '['
  · subst hbracket
    cases hfind : find S (byte ']') (I + 2) with
    | none =>
      exact exit_error (e := .unmatchedBracket) (by simp [createTurn, hend, hC, hfind])
    | some J =>
      obtain ⟨d, chars, hd, hslice, ht⟩ := tokenAt_bracket hC hfind
      cases hexpand : expand (if d = byte '^' ∨ d = byte '!' then chars else d :: chars)
          fun _ => false with
      | none =>
        exact exit_error (e := .invalid S)
          (by simp [createTurn, hend, hC, hfind, hd, hslice, hexpand])
      | some BV =>
        have hclass := bracketClass_eq hexpand
        refine ⟨.next (J + 1, Brackets ++ [⟨J + 1, bracketClass d chars⟩]), ?_, h.turn ht ?_⟩
        · simp [createTurn, hend, hC, hfind, hd, hslice, hexpand, hclass]
        · rintro G ts hPat ⟨rest, hBrackets⟩ hts
          have hB : G.Brackets[Brackets.length]? = some ⟨J + 1, bracketClass d chars⟩ := by
            simp [← hBrackets]
          exact .bracket (hPat ▸ hC) hB (ht.bounds h.1).1 hts
  by_cases hescape : C = byte '\\'
  · subst hescape
    by_cases hstray : I + 1 = S.length
    · exact exit_error (e := .strayBackslash) (by simp [createTurn, hend, hC, hstray, hbracket])
    have hlt := (List.getElem?_eq_some_iff.mp hC).1
    obtain ⟨c, hc⟩ := exists_getElem? hlt hstray
    refine ⟨.next (I + 2, Brackets ++ []), ?_, h.turn (tokenAt_escaped hC hc) ?_⟩
    · simp [createTurn, hend, hC, hstray, hbracket]
    · intro G ts hPat _ hts
      exact .escaped (hPat ▸ hC) (hPat ▸ hc) hts
  · have hnext : createTurn S (I, Brackets) = some (.next (I + 1, Brackets ++ [])) := by
      simp [createTurn, hend, hC, hbracket, hescape]
    refine ⟨_, hnext, ?_⟩
    by_cases hstar : C = byte '*'
    · subst hstar
      exact h.turn (tokenAt_single hC .star) fun G ts hPat _ hts => .star (hPat ▸ hC) hts
    by_cases hany : C = byte '?'
    · subst hany
      exact h.turn (tokenAt_single hC .any) fun G ts hPat _ hts => .any (hPat ▸ hC) hts
    have hliteral : C ∉ [byte '*', byte '?', byte '\\', byte '['] := by simp [*]
    exact h.turn (tokenAt_single hC (.literal C hliteral)) fun G ts hPat _ hts =>
      .literal (hPat ▸ hC) hliteral hts

theorem create_placed (S : Bytes) :
    Returns (create S) fun G => ∃ ts, Placed G 0 0 ts ∧ Tokens S ts := by
  have hstart : Completes S (0, []) :=
    ⟨Nat.zero_le _, fun G ts hPat _ hts htokens => ⟨ts, hts, htokens⟩⟩
  obtain ⟨r, hrun, hr⟩ := loop_total (createTurn S) (fun s => S.length - s.1)
    (fun s hs => createTurn_spec hs) hstart
  exact ⟨r, hrun _ (by simp), hr⟩

/-- The positions that `match` goes back to, as the search has them. -/
def Remembers (G : SubGlobPattern) (Str : Bytes) (s : MatchState) :
    Option (Sequence × Bytes) → Prop
  | none => s.SegmentBegin = none
  | some (seg, cur) => cur = Str.drop s.SavedS ∧
      ∃ P, s.SegmentBegin = some P ∧ Placed G P s.SavedB seg

/-- The pointers of `match` are those of a search. -/
def Searches (G : SubGlobPattern) (ts : Sequence) (Str : Bytes) (s : MatchState) : Prop :=
  s.SavedS ≤ s.S ∧ s.S ≤ Str.length ∧ ∃ p saved, Placed G s.P s.B p ∧ Remembers G Str s saved ∧
    Search ts Str p (Str.drop s.S) saved

/-- A turn goes on in the pattern, or goes back and on in the string. -/
def remaining (G : SubGlobPattern) (Str : Bytes) (s : MatchState) : ℕ :=
  (Str.length - s.SavedS) * (G.Pat.length + 1) + (G.Pat.length - s.P)

theorem remaining_lt {G : SubGlobPattern} {Str : Bytes} {s s' : MatchState}
    (h : s.SavedS ≤ s'.SavedS) (hP : s.P < s'.P) (hle : s'.P ≤ G.Pat.length) :
    remaining G Str s' < remaining G Str s := by
  have hmul : (Str.length - s'.SavedS) * (G.Pat.length + 1) ≤
      (Str.length - s.SavedS) * (G.Pat.length + 1) := Nat.mul_le_mul_right _ (by omega)
  rw [remaining, remaining]
  omega

section

variable {G : SubGlobPattern} {ts p : Sequence} {Str : Bytes} {s : MatchState} {C : UInt8}
  {saved : Option (Sequence × Bytes)}

/-- A turn goes on with the search, or decides it. -/
def Decides (G : SubGlobPattern) (ts : Sequence) (Str : Bytes) (s : MatchState) :
    Turn MatchState Bool → Prop :=
  Turn.Sat (fun s' => Searches G ts Str s' ∧ remaining G Str s' < remaining G Str s)
    fun b => b = true ↔ Matches ts Str

theorem backtrack_spec (hS : s.SavedS ≤ s.S) (hC : Str[s.S]? = some C)
    (hsaved : Remembers G Str s saved) (h : Search ts Str p (Str.drop s.S) saved)
    (hstuck : Stuck p C) : Decides G ts Str s (backtrack s) := by
  have hlt := (List.getElem?_eq_some_iff.mp hC).1
  rw [drop_eq_cons hC] at h
  cases saved with
  | none =>
    rw [backtrack, show s.SegmentBegin = none from hsaved]
    simpa [Decides, Turn.Sat] using h.reject hstuck
  | some saved =>
    obtain ⟨seg, cur⟩ := saved
    obtain ⟨rfl, P, hP, hplaced⟩ := hsaved
    have hSaved : s.SavedS < Str.length := by omega
    rw [List.drop_eq_getElem_cons hSaved] at h
    rw [backtrack, hP]
    refine ⟨⟨Nat.le_refl _, hSaved, seg, some (seg, Str.drop (s.SavedS + 1)), hplaced,
      ⟨rfl, P, rfl, hplaced⟩, h.backtrack hstuck⟩, ?_⟩
    obtain ⟨n, hn⟩ : ∃ n, Str.length - s.SavedS = n + 1 := ⟨Str.length - s.SavedS - 1, by omega⟩
    rw [remaining, remaining, hn, show Str.length - (s.SavedS + 1) = n by omega, Nat.succ_mul]
    omega

theorem advance_spec {accepts : UInt8 → Bool} {P B : ℕ} (hS : s.SavedS ≤ s.S)
    (hC : Str[s.S]? = some C) (hsaved : Remembers G Str s saved)
    (h : Search ts Str (.one accepts :: p) (Str.drop s.S) saved) (haccepts : accepts C = true)
    (hP : s.P < P) (hplaced : Placed G P B p) :
    Decides G ts Str s (.next { s with P, S := s.S + 1, B }) := by
  rw [drop_eq_cons hC] at h
  refine ⟨⟨Nat.le_succ_of_le hS, (List.getElem?_eq_some_iff.mp hC).1, p, saved, hplaced, ?_,
    h.consume haccepts⟩, remaining_lt (Nat.le_refl _) hP hplaced.le⟩
  cases saved with
  | none => exact hsaved
  | some saved => exact hsaved

theorem star_spec (hS : s.SavedS ≤ s.S) (hStr : s.S ≤ Str.length)
    (h : Search ts Str (.star :: p) (Str.drop s.S) saved) (hplaced : Placed G (s.P + 1) s.B p) :
    Decides G ts Str s (.next { s with
      P := s.P + 1, SegmentBegin := some (s.P + 1), SavedS := s.S, SavedB := s.B }) :=
  ⟨⟨Nat.le_refl _, hStr, p, some (p, Str.drop s.S), hplaced, ⟨rfl, s.P + 1, rfl, hplaced⟩, h.star⟩,
    remaining_lt hS (Nat.lt_succ_self s.P) hplaced.le⟩

theorem matchTurn_spec (h : Searches G ts Str s) :
    ∃ t, matchTurn G Str s = some t ∧ Decides G ts Str s t := by
  obtain ⟨hS, hStr, p, saved, hplaced, hsaved, hsearch⟩ := h
  by_cases hend : s.S = Str.length
  · refine ⟨_, by rw [matchTurn, if_pos hend], ?_⟩
    rw [hend, List.drop_length] at hsearch
    exact hplaced.all_star.trans hsearch.finish.symm
  obtain ⟨C, hC⟩ := exists_getElem? hStr hend
  have hback := backtrack_spec hS hC hsaved hsearch
  by_cases hpat : s.P = G.Pat.length
  · refine ⟨_, by rw [matchTurn, if_neg hend, if_pos hpat], hback (.inl ?_)⟩
    cases hplaced with
    | nil => rfl
    | star h | any h | escaped h | bracket h | literal h =>
      exact absurd hpat (Nat.ne_of_lt (List.getElem?_eq_some_iff.mp h).1)
  cases hplaced with
  | nil h => exact absurd h hpat
  | star h h' =>
    refine ⟨_, ?_, star_spec hS hStr hsearch h'⟩
    simp [matchTurn, hend, hpat, h, hC]
  | any h h' =>
    refine ⟨_, ?_, advance_spec hS hC hsaved hsearch rfl (Nat.lt_succ_self s.P) h'⟩
    simp [matchTurn, hend, hpat, h, hC, byte]
  | @escaped _ _ c _ h hc h' =>
    by_cases hcC : C = c
    · refine ⟨_, ?_, advance_spec hS hC hsaved hsearch (by simpa using hcC) (by omega) h'⟩
      simp [matchTurn, hend, hpat, h, hc, hC, hcC, byte]
    · refine ⟨_, ?_, hback (.inr ⟨_, _, rfl, by simpa using hcC⟩)⟩
      simp [matchTurn, hend, hpat, h, hc, hC, Ne.symm hcC, byte]
  | @bracket _ _ bracket _ h hB hP h' =>
    cases hbytes : bracket.Bytes C with
    | true =>
      refine ⟨_, ?_, advance_spec hS hC hsaved hsearch hbytes hP h'⟩
      simp [matchTurn, hend, hpat, h, hB, hC, hbytes, byte]
    | false =>
      refine ⟨_, ?_, hback (.inr ⟨_, _, rfl, hbytes⟩)⟩
      simp [matchTurn, hend, hpat, h, hB, hC, hbytes, byte]
  | @literal _ _ c _ h hc h' =>
    simp only [List.mem_cons, List.not_mem_nil, or_false, not_or] at hc
    by_cases hcC : C = c
    · refine ⟨_, ?_, advance_spec hS hC hsaved hsearch (by simpa using hcC)
        (Nat.lt_succ_self s.P) h'⟩
      simp [matchTurn, hend, hpat, h, hC, hcC, hc]
    · refine ⟨_, ?_, hback (.inr ⟨_, _, rfl, by simpa using hcC⟩)⟩
      simp [matchTurn, hend, hpat, h, hC, Ne.symm hcC, hc]

end

theorem matchBytes_spec {G : SubGlobPattern} (h : Placed G 0 0 ts) (Str : Bytes) :
    ∃ b, G.matchBytes Str = some b ∧ (b = true ↔ Matches ts Str) := by
  have hstart : Searches G ts Str ⟨0, 0, none, 0, 0, 0⟩ :=
    ⟨Nat.le_refl 0, Nat.zero_le _, ts, none, h, rfl, .start ts Str⟩
  obtain ⟨b, hrun, hb⟩ := loop_total (matchTurn G Str) (remaining G Str)
    (fun s hs => matchTurn_spec hs) hstart
  refine ⟨b, hrun _ ?_, hb⟩
  rw [remaining, Nat.sub_zero, Nat.sub_zero, Nat.succ_mul]
  omega

theorem create_spec (S : Bytes) :
    Returns (create S) fun G => (∃ ts, Tokens S ts) ∧ ∀ Str, ∃ b, G.matchBytes Str = some b ∧
      (b = true ↔ ∃ ts, Tokens S ts ∧ Matches ts Str) := by
  obtain ⟨r, hrun, hr⟩ := create_placed S
  refine ⟨r, hrun, ?_⟩
  intro G hG
  obtain ⟨ts, hplaced, htokens⟩ := hr G hG
  refine ⟨⟨ts, htokens⟩, ?_⟩
  intro Str
  obtain ⟨b, hmatch, hb⟩ := matchBytes_spec hplaced Str
  refine ⟨b, hmatch, hb.trans ⟨fun h => ⟨ts, htokens, h⟩, ?_⟩⟩
  rintro ⟨ts', htokens', h⟩
  exact htokens.unique htokens' ▸ h

end SubGlobPattern

/-! ## Terms in place of braces -/

theorem Terms.tokens (h : Terms u texts terms) : List.Forall₂ Tokens texts terms := by
  induction h with
  | close => exact .cons .nil .nil
  | comma _ ih => exact .cons .nil ih
  | token h _ _ ih =>
    cases ih with
    | cons htokens hrest => exact .cons (.cons h htokens) hrest

theorem TokenAt.slice_eq {a : ℕ} (h : TokenAt S I I' u t) (ha : a ≤ I) :
    slice S a I' = slice S a I ++ u := by
  obtain ⟨-, hdrop, rfl⟩ := h
  rw [slice, slice, show I + u.length - a = I - a + u.length by omega, List.take_add, List.drop_drop,
    Nat.add_sub_cancel' ha, hdrop, List.take_left']
  rfl

theorem slice_zero (S : Bytes) (I : ℕ) : slice S 0 I = S.take I := rfl

def expandAll (S : Bytes) (BraceExpansions : List BraceExpansion) : List Bytes :=
  BraceExpansions.foldr (fun BE SubPatterns => replaceBraces SubPatterns BE) [S]

/-- The pattern is read from the index on, and the expansions found there lead to all
choices of texts. -/
structure Scanned (S : Bytes) (I : ℕ) (BraceExpansions : List BraceExpansion)
    (texts : List (List Bytes)) (parts : Parts) : Prop where
  reads : Reads true (S.drop I) parts
  tokens : List.Forall₂ (List.Forall₂ Tokens) texts parts
  patterns : ∀ x, x ∈ expandAll S BraceExpansions ↔
    ∃ choice, List.Forall₂ (· ∈ ·) choice texts ∧ x = S.take I ++ choice.flatten
  ne_nil : expandAll S BraceExpansions ≠ []

namespace Scanned

variable {S : Bytes} {I I' : ℕ} {BraceExpansions : List BraceExpansion}
  {textss : List (List Bytes)} {parts : Parts}

theorem nil (S : Bytes) : Scanned S S.length [] [] [] where
  reads := by
    rw [List.drop_length]
    exact .nil
  tokens := .nil
  patterns := by simp [expandAll]
  ne_nil := by simp [expandAll]

theorem token (h : Scanned S I' BraceExpansions textss parts) (ht : TokenAt S I I' u t)
    (hu : u ≠ [byte '{']) : Scanned S I BraceExpansions ([u] :: textss) ([[t]] :: parts) where
  reads := by
    rw [ht.2.1]
    exact .token ht.1 (fun _ => hu) h.reads
  tokens := by
    have htokens : Tokens (u ++ []) [t] := .cons ht.1 .nil
    rw [List.append_nil] at htokens
    exact .cons (.cons htokens .nil) h.tokens
  patterns := by
    have htake := ht.slice_eq (Nat.zero_le I)
    rw [slice_zero, slice_zero] at htake
    intro x
    rw [h.patterns, htake]
    constructor
    · rintro ⟨choice, hchoice, rfl⟩
      exact ⟨u :: choice, .cons List.mem_cons_self hchoice, by simp⟩
    · rintro ⟨_, hchoice, rfl⟩
      cases hchoice with
      | cons hu hchoice =>
        rw [List.mem_singleton.mp hu]
        exact ⟨_, hchoice, by simp⟩
  ne_nil := h.ne_nil

theorem brace {w : Bytes} (h : Scanned S I' BraceExpansions textss parts)
    (hI : S[I]? = some (byte '{')) (hw : Terms w texts terms)
    (hdrop : S.drop (I + 1) = w ++ S.drop I') (hI' : I' = I + 1 + w.length)
    (htwo : 2 ≤ texts.length) :
    Scanned S I (⟨I, I' - I, texts⟩ :: BraceExpansions) (texts :: textss) (terms :: parts) where
  reads := by
    rw [drop_eq_cons hI, hdrop]
    exact .brace rfl hw htwo h.reads
  tokens := .cons hw.tokens h.tokens
  patterns := by
    have hlen : (S.take I').length = I' := by
      have := congrArg List.length hdrop
      have := (List.getElem?_eq_some_iff.mp hI).1
      simp only [List.length_drop, List.length_append, List.length_take] at *
      omega
    have hspliced : ∀ choice : List Bytes, (S.take I' ++ choice.flatten).take I = S.take I ∧
        (S.take I' ++ choice.flatten).drop (I + (I' - I)) = choice.flatten := by
      intro choice
      rw [show I + (I' - I) = I' by omega, List.take_append_of_le_length (by omega), List.take_take,
        Nat.min_eq_left (by omega), List.drop_left' hlen]
      exact ⟨rfl, rfl⟩
    intro x
    change x ∈ replaceBraces (expandAll S BraceExpansions) _ ↔ _
    simp only [replaceBraces, List.mem_flatMap, List.mem_map, h.patterns]
    constructor
    · rintro ⟨text, htext, _, ⟨choice, hchoice, rfl⟩, rfl⟩
      rw [(hspliced choice).1, (hspliced choice).2]
      exact ⟨text :: choice, .cons htext hchoice, by simp⟩
    · rintro ⟨_, hchoice, rfl⟩
      cases hchoice with
      | @cons text _ choice _ htext hchoice =>
        refine ⟨text, htext, _, ⟨choice, hchoice, rfl⟩, ?_⟩
        rw [(hspliced choice).1, (hspliced choice).2]
        simp
  ne_nil := by
    obtain ⟨text, htext⟩ := List.exists_mem_of_length_pos (by omega : 0 < texts.length)
    obtain ⟨x, hx⟩ := List.exists_mem_of_ne_nil _ h.ne_nil
    apply List.ne_nil_of_mem
    exact List.mem_flatMap.mpr ⟨text, htext, List.mem_map_of_mem hx⟩

end Scanned

/-- What is scanned from the index on can be completed to the whole pattern; inside
braces it begins with the rest of the current term. -/
def Resumes (S : Bytes) (s : BraceState) : Prop :=
  match s.CurrentBE with
  | none => ∀ BraceExpansions textss parts, Scanned S s.I BraceExpansions textss parts →
      ∃ textss parts, Scanned S 0 (s.BraceExpansions ++ BraceExpansions) textss parts
  | some (Start, before) => Start ≤ s.I ∧ s.TermBegin ≤ s.I ∧
      ∀ w I' text texts terms BraceExpansions textss parts, Terms w (text :: texts) terms →
        S.drop s.I = w ++ S.drop I' → I' = s.I + w.length → 1 ≤ before.length + texts.length →
        Scanned S I' BraceExpansions textss parts →
        ∃ textss parts, Scanned S 0 (s.BraceExpansions ++ ⟨Start, I' - Start,
          before ++ (slice S s.TermBegin s.I ++ text) :: texts⟩ :: BraceExpansions) textss parts

theorem Resumes.token {s : BraceState} (h : Resumes S s) (ht : TokenAt S s.I I' u t)
    (hI : s.I ≤ S.length) (hbrace : u ≠ [byte '{'])
    (hsep : s.CurrentBE ≠ none → u ≠ [byte ','] ∧ u ≠ [byte '}']) : Resumes S { s with I := I' } := by
  obtain ⟨I, done, CurrentBE, TermBegin⟩ := s
  cases CurrentBE with
  | none => exact fun BEs textss parts hscanned => h BEs _ _ (hscanned.token ht hbrace)
  | some current =>
    obtain ⟨hStart, hTermBegin, h⟩ := h
    have hlt := (ht.bounds hI).1
    refine ⟨Nat.le_trans hStart hlt.le, Nat.le_trans hTermBegin hlt.le, ?_⟩
    intro w J text texts terms BEs textss parts hw hdrop hJ htwo hscanned
    have hu : u ∉ [[byte '{'], [byte ','], [byte '}']] := by simp [hbrace, hsep]
    cases terms with
    | nil => nomatch hw.tokens
    | cons ts terms =>
      rw [ht.slice_eq hTermBegin, List.append_assoc]
      apply h (u ++ w) J (u ++ text) texts _ BEs textss parts (.token ht.1 hu hw) ?_ ?_ htwo
        hscanned
      · rw [ht.2.1, hdrop, List.append_assoc]
      · rw [hJ, ht.2.2, List.length_append, Nat.add_assoc]

theorem Resumes.open {s : BraceState} (h : Resumes S s) (hnone : s.CurrentBE = none)
    (hC : S[s.I]? = some (byte '{')) :
    Resumes S { s with I := s.I + 1, CurrentBE := some (s.I, []), TermBegin := s.I + 1 } := by
  obtain ⟨I, done, CurrentBE, TermBegin⟩ := s
  subst hnone
  refine ⟨Nat.le_succ I, Nat.le_refl _, ?_⟩
  intro w I' text texts terms BEs textss parts hw hdrop hI' htwo hscanned
  have h' := h _ _ _ (hscanned.brace hC hw hdrop hI' (by simpa using htwo))
  simpa [slice] using h'

theorem Resumes.comma {s : BraceState} {Start : ℕ} {before : List Bytes} (h : Resumes S s)
    (hsome : s.CurrentBE = some (Start, before)) (hC : S[s.I]? = some (byte ',')) :
    Resumes S { s with
      I := s.I + 1
      CurrentBE := some (Start, before ++ [slice S s.TermBegin s.I])
      TermBegin := s.I + 1 } := by
  obtain ⟨I, done, CurrentBE, TermBegin⟩ := s
  subst hsome
  obtain ⟨hStart, hTermBegin, h⟩ := h
  refine ⟨Nat.le_succ_of_le hStart, Nat.le_refl _, ?_⟩
  intro w I' text texts terms BEs textss parts hw hdrop hI' htwo hscanned
  have h' := h (byte ',' :: w) I' [] (text :: texts) _ BEs textss parts (.comma hw)
    (by rw [drop_eq_cons hC, hdrop]; rfl) (by rw [hI']; simp; omega) (Nat.succ_pos _) hscanned
  simpa [slice] using h'

theorem Resumes.close {s : BraceState} {Start : ℕ} {before : List Bytes} (h : Resumes S s)
    (hsome : s.CurrentBE = some (Start, before)) (hbefore : before ≠ [])
    (hC : S[s.I]? = some (byte '}')) :
    Resumes S { s with
      I := s.I + 1
      BraceExpansions := s.BraceExpansions ++
        [⟨Start, s.I - Start + 1, before ++ [slice S s.TermBegin s.I]⟩]
      CurrentBE := none } := by
  obtain ⟨I, done, CurrentBE, TermBegin⟩ := s
  subst hsome
  obtain ⟨hStart, hTermBegin, h⟩ := h
  intro BEs textss parts hscanned
  have h' := h [byte '}'] (I + 1) [] [] _ BEs textss parts .close (by rw [drop_eq_cons hC]; rfl)
    rfl (by simpa [Nat.one_le_iff_ne_zero] using hbefore) hscanned
  rw [show I + 1 - Start = I - Start + 1 from Nat.succ_sub hStart] at h'
  simpa using h'

/-- The turn goes on with the scan, or its result is that of a whole scan. -/
def TurnScans (S : Bytes) (s : BraceState) : Prop :=
  ∃ t, braceTurn S s = some t ∧
    t.Sat (fun s' => (s'.I ≤ S.length ∧ Resumes S s') ∧ S.length - s'.I < S.length - s.I) fun r =>
      ∀ BraceExpansions, r = .ok BraceExpansions →
        ∃ textss parts, Scanned S 0 BraceExpansions textss parts

theorem turnScans_next {s s' : BraceState} (h : Resumes S s') (hlt : s.I < s'.I ∧ s'.I ≤ S.length)
    (hturn : braceTurn S s = some (.next s')) : TurnScans S s :=
  ⟨_, hturn, ⟨hlt.2, h⟩, by omega⟩

theorem braceTurn_spec {s : BraceState} (hI : s.I ≤ S.length) (h : Resumes S s) :
    TurnScans S s := by
  by_cases hend : s.I = S.length
  · refine ⟨_, by rw [braceTurn, if_pos hend], ?_⟩
    intro BEs hBEs
    cases hCurrent : s.CurrentBE with
    | some => simp [hCurrent] at hBEs
    | none =>
      have hdone : s.BraceExpansions = BEs := by simpa [hCurrent] using hBEs
      rw [Resumes, hCurrent] at h
      have hscanned := h [] [] [] (hend ▸ .nil S)
      rwa [List.append_nil, hdone] at hscanned
  obtain ⟨C, hC⟩ := exists_getElem? hI hend
  have hlt := (List.getElem?_eq_some_iff.mp hC).1
  by_cases hbracket : C = byte '['
  · subst hbracket
    cases hfind : find S (byte ']') (s.I + 2) with
    | none => exact exit_error (e := .unmatchedBracket) (by simp [braceTurn, hend, hC, hfind])
    | some J =>
      obtain ⟨d, chars, -, -, ht⟩ := tokenAt_bracket hC hfind
      apply turnScans_next (h.token ht hI ?_ ?_) (ht.bounds hI)
      · simp [braceTurn, hend, hC, hfind]
      · simp
      · simp
  by_cases hopen : C = byte '{'
  · subst hopen
    cases hCurrent : s.CurrentBE with
    | some => exact exit_error (e := .nestedBraces) (by simp [braceTurn, hend, hC, hCurrent, byte])
    | none =>
      apply turnScans_next (h.open hCurrent hC) ⟨Nat.lt_succ_self _, hlt⟩
      simp [braceTurn, hend, hC, hCurrent, byte]
  by_cases hescape : C = byte '\\'
  · subst hescape
    by_cases hstray : s.I + 1 = S.length
    · exact exit_error (e := .strayBackslash) (by simp [braceTurn, hend, hC, hstray, byte])
    obtain ⟨c, hc⟩ := exists_getElem? hlt hstray
    have ht := tokenAt_escaped hC hc
    apply turnScans_next (h.token ht hI ?_ ?_) (ht.bounds hI)
    · simp [braceTurn, hend, hC, hstray, byte]
    · simp
    · simp
  obtain ⟨t, htoken⟩ := exists_single hbracket hescape
  have hsingle := h.token (tokenAt_single hC htoken) hI (by simpa using hopen)
  by_cases hcomma : C = byte ','
  · subst hcomma
    cases hCurrent : s.CurrentBE with
    | none =>
      apply turnScans_next (hsingle ?_) ⟨Nat.lt_succ_self _, hlt⟩
      · simp [braceTurn, hend, hC, hCurrent, byte]
      · simp [hCurrent]
    | some =>
      apply turnScans_next (h.comma hCurrent hC) ⟨Nat.lt_succ_self _, hlt⟩
      simp [braceTurn, hend, hC, hCurrent, byte]
  by_cases hclose : C = byte '}'
  · subst hclose
    cases hCurrent : s.CurrentBE with
    | none =>
      apply turnScans_next (hsingle ?_) ⟨Nat.lt_succ_self _, hlt⟩
      · simp [braceTurn, hend, hC, hCurrent, byte]
      · simp [hCurrent]
    | some current =>
      by_cases hbefore : current.2 = []
      · exact exit_error (e := .emptyBraces)
          (by simp [braceTurn, hend, hC, hCurrent, hbefore, byte])
      · apply turnScans_next (h.close hCurrent hbefore hC) ⟨Nat.lt_succ_self _, hlt⟩
        simp [braceTurn, hend, hC, hCurrent, hbefore, byte]
  · apply turnScans_next (hsingle ?_) ⟨Nat.lt_succ_self _, hlt⟩
    · simp [braceTurn, hend, hC, hbracket, hopen, hescape, hcomma, hclose]
    · simp [hcomma, hclose]

theorem parseBraceExpansions_spec (S : Bytes) (MaxSubPatterns : Option ℕ) :
    Returns (parseBraceExpansions S MaxSubPatterns) fun SubPatterns =>
      SubPatterns = [S] ∧ (MaxSubPatterns = none ∨ byte '{' ∉ S) ∨
      MaxSubPatterns.isSome = true ∧ ∃ BraceExpansions textss parts,
        SubPatterns = expandAll S BraceExpansions ∧ Scanned S 0 BraceExpansions textss parts := by
  cases MaxSubPatterns with
  | none => exact .pure (.inl ⟨rfl, .inl rfl⟩)
  | some Max =>
    rw [parseBraceExpansions]
    by_cases hmem : byte '{' ∉ S
    · rw [if_pos hmem]
      exact .pure (.inl ⟨rfl, .inr hmem⟩)
    rw [if_neg hmem]
    have hstart : Resumes S ⟨0, [], none, 0⟩ :=
      fun BEs textss parts hscanned => ⟨textss, parts, hscanned⟩
    obtain ⟨r, hrun, hr⟩ := loop_total (braceTurn S) (fun s => S.length - s.I)
      (fun s hs => braceTurn_spec hs.1 hs.2) ⟨Nat.zero_le _, hstart⟩
    refine .bind ⟨r, hrun _ (Nat.lt_succ_self _), hr⟩ ?_
    rintro BEs ⟨textss, parts, hscanned⟩
    by_cases hcount : countSubPatterns BEs 1 > Max
    · rw [if_pos hcount]
      exact .throw
    · rw [if_neg hcount]
      refine .pure (.inr ⟨rfl, BEs, textss, parts, ?_, hscanned⟩)
      rw [List.foldl_reverse, expandAll]

theorem Tokens.append (h : Tokens u ts) (h' : Tokens v ts') : Tokens (u ++ v) (ts ++ ts') := by
  induction h with
  | nil => exact h'
  | cons h _ ih =>
    rw [List.append_assoc]
    exact .cons h ih

theorem Tokens.reads (h : Tokens u ts) (hu : braces = true → byte '{' ∉ u) :
    Reads braces u (ts.map fun t => [[t]]) := by
  induction h with
  | nil => exact .nil
  | cons h _ ih =>
    apply Reads.token h
    · rintro hbraces rfl
      exact hu hbraces List.mem_cons_self
    · exact ih fun hbraces hmem => hu hbraces (List.mem_append_right _ hmem)

theorem Scanned.decides {Str : Bytes} {BraceExpansions : List BraceExpansion}
    {textss : List (List Bytes)} (h : Scanned S 0 BraceExpansions textss parts) :
    (∃ SubPat ∈ expandAll S BraceExpansions, ∃ ts, Tokens SubPat ts ∧ Matches ts Str) ↔
      Splits parts Str := by
  have happend : ∀ u ts v ts', Tokens u ts → Tokens v ts' → Tokens (u ++ v) (ts ++ ts') :=
    fun u ts v ts' => Tokens.append
  rw [splits_iff]
  constructor
  · rintro ⟨x, hx, ts, htokens, hmatch⟩
    obtain ⟨choice, hchoice, rfl⟩ := (h.patterns x).mp hx
    obtain ⟨choice', hchoice', htokens'⟩ := exists_choice .nil happend h.tokens hchoice
    exact ⟨choice', hchoice', htokens'.unique htokens ▸ hmatch⟩
  · rintro ⟨choice', hchoice', hmatch⟩
    have hflip := h.tokens.flip.imp fun _ _ h => h.flip
    obtain ⟨choice, hchoice, htokens⟩ := exists_choice .nil
      (fun ts u ts' v h h' => happend u ts v ts' h h') hflip hchoice'
    exact ⟨_, (h.patterns _).mpr ⟨choice, hchoice, rfl⟩, _, htokens, hmatch⟩

/-! ## Patterns -/

namespace GlobPattern

/-- The pattern has tokens, and the matcher decides them. -/
def Recognizes (SubPat : Bytes) (Glob : SubGlobPattern) : Prop :=
  (∃ ts, Tokens SubPat ts) ∧ ∀ Str, ∃ b, Glob.matchBytes Str = some b ∧
    (b = true ↔ ∃ ts, Tokens SubPat ts ∧ Matches ts Str)

theorem createSubGlobs_spec (SubPats : List Bytes) :
    Returns (createSubGlobs SubPats) fun SubGlobs => List.Forall₂ Recognizes SubPats SubGlobs := by
  induction SubPats with
  | nil => exact .pure .nil
  | cons SubPat SubPats ih =>
    apply (SubGlobPattern.create_spec SubPat).bind
    intro SubGlob hSubGlob
    apply ih.bind
    intro SubGlobs hSubGlobs
    exact .pure (.cons hSubGlob hSubGlobs)

theorem matchAny_spec {SubPats : List Bytes} {SubGlobs : List SubGlobPattern}
    (h : List.Forall₂ Recognizes SubPats SubGlobs) (Str : Bytes) :
    ∃ b, matchAny Str SubGlobs = some b ∧
      (b = true ↔ ∃ SubPat ∈ SubPats, ∃ ts, Tokens SubPat ts ∧ Matches ts Str) := by
  induction h with
  | nil => exact ⟨false, rfl, by simp⟩
  | cons hGlob _ ih =>
    obtain ⟨b, hmatch, hb⟩ := hGlob.2 Str
    obtain ⟨b', hrest, hb'⟩ := ih
    cases b with
    | true => exact ⟨true, by simp [matchAny, hmatch], by simp [← hb]⟩
    | false => exact ⟨b', by simp [matchAny, hmatch, hrest], by simp [← hb, hb']⟩

theorem subGlobs_spec (S : Bytes) (MaxSubPatterns : Option ℕ) :
    Returns (parseBraceExpansions S MaxSubPatterns >>= createSubGlobs) fun SubGlobs =>
      SubGlobs ≠ [] ∧ ∃ parts, Reads MaxSubPatterns.isSome S parts ∧
        ∀ Str, ∃ b, matchAny Str SubGlobs = some b ∧ (b = true ↔ Splits parts Str) := by
  apply (parseBraceExpansions_spec S MaxSubPatterns).bind
  intro SubPats hSubPats
  obtain ⟨r, hrun, hr⟩ := createSubGlobs_spec SubPats
  refine ⟨r, hrun, ?_⟩
  intro SubGlobs hok
  have hGlobs := hr SubGlobs hok
  rcases hSubPats with ⟨rfl, hbraces⟩ | ⟨hbraces, BEs, textss, parts, rfl, hscanned⟩
  · have hne : SubGlobs ≠ [] := by
      rintro rfl
      cases hGlobs
    obtain ⟨ts, htokens⟩ : ∃ ts, Tokens S ts := by
      cases hGlobs with
      | cons h => exact h.1
    refine ⟨hne, _, htokens.reads ?_, fun Str => ?_⟩
    · intro hsome
      exact hbraces.resolve_left (by rintro rfl; cases hsome)
    · obtain ⟨b, hmatch, hb⟩ := matchAny_spec hGlobs Str
      refine ⟨b, hmatch, ?_⟩
      rw [hb, splits_singletons]
      constructor
      · rintro ⟨_, hS, ts', htokens', hmatches⟩
        rw [List.mem_singleton.mp hS] at htokens'
        exact htokens.unique htokens' ▸ hmatches
      · exact fun hmatches => ⟨S, List.mem_singleton_self S, ts, htokens, hmatches⟩
  · have hne : SubGlobs ≠ [] := by
      rintro rfl
      exact hscanned.ne_nil (List.forall₂_nil_right_iff.mp hGlobs)
    refine ⟨hne, parts, hbraces ▸ hscanned.reads, fun Str => ?_⟩
    obtain ⟨b, hmatch, hb⟩ := matchAny_spec hGlobs Str
    exact ⟨b, hmatch, hb.trans hscanned.decides⟩

theorem reads_prefix {Prefix : Bytes} (hPrefix : ∀ c ∈ Prefix, isMeta c = false)
    (h : Reads braces v parts) :
    Reads braces (Prefix ++ v) (Prefix.map (fun c => [[.one (· == c)]]) ++ parts) := by
  induction Prefix with
  | nil => exact h
  | cons c Prefix ih =>
    obtain ⟨hc, hrest⟩ := List.forall_mem_cons.mp hPrefix
    simp only [isMeta, List.contains_eq_mem, decide_eq_false_iff_not, List.mem_cons, not_or] at hc
    exact Reads.token (u := [c]) (.literal c (by simp [hc])) (by simp [hc]) (ih hrest)

theorem matchBytes_spec {Prefix : Bytes} {SubGlobs : List SubGlobPattern} (h : ∀ Str, ∃ b,
      (if SubGlobs.isEmpty && Str.isEmpty then some true else matchAny Str SubGlobs) = some b ∧
        (b = true ↔ Splits parts Str)) (S : Bytes) :
    ∃ b, matchBytes ⟨Prefix, SubGlobs⟩ S = some b ∧
      (b = true ↔ Splits (Prefix.map (fun c => [[.one (· == c)]]) ++ parts) S) := by
  simp only [matchBytes, splits_literals, List.isPrefixOf_iff_prefix]
  by_cases hS : Prefix <+: S
  · obtain ⟨Str, rfl⟩ := hS
    simpa using h Str
  · rw [if_neg hS]
    refine ⟨false, rfl, ?_⟩
    simp only [Bool.false_eq_true, false_iff, not_exists, not_and]
    rintro Str rfl
    exact absurd (List.prefix_append Prefix Str) hS

theorem create_spec (S : Bytes) (MaxSubPatterns : Option ℕ) :
    Returns (create S MaxSubPatterns) fun Pat => ∃ parts, Reads MaxSubPatterns.isSome S parts ∧
      ∀ Str, ∃ b, Pat.matchBytes Str = some b ∧ (b = true ↔ Splits parts Str) := by
  rw [create]
  have hPrefix : ∀ c ∈ S.takeWhile (fun C => !isMeta C), isMeta c = false := by
    intro c hc
    simpa using List.all_eq_true.mp List.all_takeWhile c hc
  have hS := List.takeWhile_append_dropWhile (p := fun C => !isMeta C) (l := S)
  generalize S.takeWhile (fun C => !isMeta C) = Prefix at hPrefix hS ⊢
  generalize S.dropWhile (fun C => !isMeta C) = rest at hS ⊢
  subst hS
  by_cases hrest : rest = []
  · rw [if_pos hrest, hrest]
    refine .pure ⟨_, reads_prefix hPrefix .nil, matchBytes_spec fun Str => ?_⟩
    cases Str <;> simp [matchAny, Splits]
  · rw [if_neg hrest]
    rw [← bind_assoc]
    apply (subGlobs_spec rest MaxSubPatterns).bind
    rintro SubGlobs ⟨hne, parts, hreads, hdecides⟩
    refine .pure ⟨_, reads_prefix hPrefix hreads, matchBytes_spec fun Str => ?_⟩
    simpa [hne] using hdecides Str

/-- A pattern that is accepted can be read, and `match` decides what its reading says. -/
theorem create_matches (S : Bytes) (MaxSubPatterns : Option ℕ) :
    ∃ r, (create S MaxSubPatterns).run = some r ∧ ∀ Pat, r = .ok Pat →
      (∃ parts, Reads MaxSubPatterns.isSome S parts) ∧
        ∀ parts, Reads MaxSubPatterns.isSome S parts →
          ∀ Str, ∃ b, Pat.matchBytes Str = some b ∧ (b = true ↔ Splits parts Str) := by
  obtain ⟨r, hrun, hr⟩ := create_spec S MaxSubPatterns
  refine ⟨r, hrun, fun Pat hPat => ?_⟩
  obtain ⟨parts, hreads, hdecides⟩ := hr Pat hPat
  refine ⟨⟨parts, hreads⟩, fun parts' hreads' => ?_⟩
  exact hreads.unique hreads' ▸ hdecides

/-- The pattern `{a,b}*`. -/
theorem create_matches_braces : ∃ Pat parts,
    (create [byte '{', byte 'a', byte ',', byte 'b', byte '}', byte '*'] (some 2)).run =
      some (.ok Pat) ∧ ∀ Str, ∃ b, Pat.matchBytes Str = some b ∧ (b = true ↔ Splits parts Str) := by
  obtain ⟨r, hrun, hr⟩ := create_matches
    [byte '{', byte 'a', byte ',', byte 'b', byte '}', byte '*'] (some 2)
  have hok : some r = some (.ok ⟨[], [⟨[byte 'a', byte '*'], []⟩, ⟨[byte 'b', byte '*'], []⟩]⟩) :=
    hrun.symm.trans rfl
  obtain ⟨⟨parts, hreads⟩, hdecides⟩ := hr _ (Option.some.inj hok)
  exact ⟨_, parts, hrun.trans hok, hdecides parts hreads⟩

end GlobPattern

end SmlnjLlvm.Glob
