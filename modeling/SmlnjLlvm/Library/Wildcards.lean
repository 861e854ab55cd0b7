import Mathlib.Data.List.Forall2
import Mathlib.Data.List.Infix
import Mathlib.Tactic.Common

/-!
# Wildcard patterns

A token takes one symbol or any string. A search that goes from left to right needs
to come back only to the last wildcard: a match that starts one later at an earlier
one is found by it too.
-/

namespace SmlnjLlvm.Wildcards

variable {α : Type}

inductive Token (α : Type) where
  | one (accepts : α → Bool)
  | star

/-- The string is split among the tokens. -/
def Matches : List (Token α) → List α → Prop
  | [], s => s = []
  | .one accepts :: ts, s => ∃ c w, s = c :: w ∧ accepts c = true ∧ Matches ts w
  | .star :: ts, s => ∃ u w, s = u ++ w ∧ Matches ts w

theorem matches_append {ts ts' : List (Token α)} {s : List α} :
    Matches (ts ++ ts') s ↔ ∃ u w, s = u ++ w ∧ Matches ts u ∧ Matches ts' w := by
  induction ts generalizing s with
  | nil => simp [Matches]
  | cons t ts ih =>
    cases t with
    | one accepts =>
      simp only [List.cons_append, Matches, ih]
      constructor
      · rintro ⟨c, _, rfl, hc, u, w, rfl, hu, hw⟩
        exact ⟨c :: u, w, rfl, ⟨c, u, rfl, hc, hu⟩, hw⟩
      · rintro ⟨_, w, rfl, ⟨c, u, rfl, hc, hu⟩, hw⟩
        exact ⟨c, u ++ w, rfl, hc, u, w, rfl, hu, hw⟩
    | star =>
      simp only [List.cons_append, Matches, ih]
      constructor
      · rintro ⟨v, _, rfl, u, w, rfl, hu, hw⟩
        exact ⟨v ++ u, w, by rw [List.append_assoc], ⟨v, u, rfl, hu⟩, hw⟩
      · rintro ⟨_, w, rfl, ⟨v, u, rfl, hu⟩, hw⟩
        exact ⟨v, u ++ w, by rw [List.append_assoc], u, w, rfl, hu, hw⟩

theorem matches_nil {ts : List (Token α)} : Matches ts [] ↔ ∀ t ∈ ts, t = .star := by
  induction ts with
  | nil => simp [Matches]
  | cons t ts ih => cases t <;> simp [Matches, ih]

/-- A match of some of the string's ends. -/
def MatchesEnd (ts : List (Token α)) (s : List α) : Prop := ∃ w, w <:+ s ∧ Matches ts w

theorem matches_star {ts : List (Token α)} {s : List α} :
    Matches (.star :: ts) s ↔ MatchesEnd ts s := by
  constructor
  · rintro ⟨u, w, rfl, hw⟩
    exact ⟨w, List.suffix_append u w, hw⟩
  · rintro ⟨w, ⟨u, rfl⟩, hw⟩
    exact ⟨u, w, rfl, hw⟩

/-- The tokens take one symbol each. -/
def Fixed (ts : List (Token α)) : Prop := ∀ t ∈ ts, t ≠ .star

theorem Fixed.length_eq {ts : List (Token α)} (h : Fixed ts) {s : List α} (hs : Matches ts s) :
    s.length = ts.length := by
  induction ts generalizing s with
  | nil => rw [show s = [] from hs]; rfl
  | cons t ts ih =>
    obtain ⟨ht, hts⟩ := List.forall_mem_cons.mp h
    cases t with
    | star => exact absurd rfl ht
    | one accepts =>
      obtain ⟨c, w, rfl, -, hw⟩ := hs
      rw [List.length_cons, List.length_cons, ih hts hw]

/-- The search has `p` and `cur` left. Behind a wildcard it remembers the tokens after
it and the string from where they were tried last; `done` has taken what lies between. -/
inductive Search (ts : List (Token α)) (s : List α) :
    List (Token α) → List α → Option (List (Token α) × List α) → Prop
  | fresh {p : List (Token α)} {cur : List α} (h : Matches ts s ↔ Matches p cur) :
      Search ts s p cur none
  | saved {done p : List (Token α)} {u cur : List α} (hdone : Fixed done) (hu : Matches done u)
      (h : Matches ts s ↔ MatchesEnd (done ++ p) (u ++ cur)) :
      Search ts s p cur (some (done ++ p, u ++ cur))

/-- The next token does not take the next symbol. -/
def Stuck (p : List (Token α)) (c : α) : Prop :=
  p = [] ∨ ∃ accepts p', p = .one accepts :: p' ∧ accepts c = false

theorem Stuck.not_matches {p : List (Token α)} {c : α} {s : List α} (h : Stuck p c) :
    ¬Matches p (c :: s) := by
  rcases h with rfl | ⟨accepts, p', rfl, hc⟩
  · simp [Matches]
  · simp [Matches, hc]

namespace Search

variable {ts p : List (Token α)} {s cur : List α} {c : α} {accepts : α → Bool}
  {saved : Option (List (Token α) × List α)}

theorem start (ts : List (Token α)) (s : List α) : Search ts s ts s none := fresh Iff.rfl

theorem restart (h : Matches ts s ↔ MatchesEnd p cur) : Search ts s p cur (some (p, cur)) :=
  @saved _ ts s [] p [] cur (by simp [Fixed]) rfl h

theorem consume (h : Search ts s (.one accepts :: p) (c :: cur) saved) (hc : accepts c = true) :
    Search ts s p cur saved := by
  cases h with
  | fresh h => exact fresh (h.trans (by simp [Matches, hc]))
  | @saved done _ u _ hdone hu h =>
    have hdone' : Fixed (done ++ [.one accepts]) := by
      intro t ht
      rcases List.mem_append.mp ht with ht | ht
      · exact hdone t ht
      · rw [List.mem_singleton.mp ht]
        simp
    have hu' : Matches (done ++ [.one accepts]) (u ++ [c]) :=
      matches_append.mpr ⟨u, [c], rfl, hu, c, [], rfl, hc, rfl⟩
    have htokens : done ++ .one accepts :: p = done ++ [.one accepts] ++ p := by simp
    have hstring : u ++ c :: cur = u ++ [c] ++ cur := by simp
    rw [htokens, hstring] at h ⊢
    exact Search.saved hdone' hu' h

theorem star (h : Search ts s (.star :: p) cur saved) : Search ts s p cur (some (p, cur)) := by
  apply restart
  cases h with
  | fresh h => exact h.trans matches_star
  | @saved done _ u _ hdone hu h =>
    refine h.trans ⟨?_, ?_⟩
    · rintro ⟨w, hw, hmatch⟩
      obtain ⟨u', w', rfl, hu', hw'⟩ := matches_append.mp hmatch
      obtain ⟨w'', hsuffix, hw''⟩ := matches_star.mp hw'
      have hlen : u'.length = u.length := (hdone.length_eq hu').trans (hdone.length_eq hu).symm
      have hle := hw.length_le
      rw [List.length_append, List.length_append] at hle
      refine ⟨w'', hsuffix.trans ?_, hw''⟩
      exact List.suffix_of_suffix_length_le ((List.suffix_append u' w').trans hw)
        (List.suffix_append u cur) (by omega)
    · rintro ⟨w, hw, hmatch⟩
      exact ⟨u ++ cur, List.suffix_refl _,
        matches_append.mpr ⟨u, cur, rfl, hu, matches_star.mpr ⟨w, hw, hmatch⟩⟩⟩

theorem reject (h : Search ts s p (c :: cur) none) (hstuck : Stuck p c) : ¬Matches ts s := by
  cases h with
  | fresh h => exact fun hmatch => hstuck.not_matches (h.mp hmatch)

theorem backtrack {seg : List (Token α)} {d : α} {sv : List α}
    (h : Search ts s p (c :: cur) (some (seg, d :: sv))) (hstuck : Stuck p c) :
    Search ts s seg sv (some (seg, sv)) := by
  apply restart
  generalize hsaved : some (seg, d :: sv) = saved' at h
  cases h with
  | fresh h => cases hsaved
  | @saved done _ u _ hdone hu h =>
    obtain ⟨rfl, hsv⟩ := Prod.mk.inj (Option.some.inj hsaved)
    have hfail : ¬Matches (done ++ p) (d :: sv) := by
      rw [hsv, matches_append]
      rintro ⟨u', w, heq, hu', hw⟩
      have hlen : u.length = u'.length := (hdone.length_eq hu).trans (hdone.length_eq hu').symm
      obtain ⟨-, rfl⟩ := List.append_inj heq hlen
      exact hstuck.not_matches hw
    rw [h, ← hsv]
    constructor
    · rintro ⟨w, hw, hmatch⟩
      rcases List.suffix_cons_iff.mp hw with rfl | hw
      · exact absurd hmatch hfail
      · exact ⟨w, hw, hmatch⟩
    · rintro ⟨w, hw, hmatch⟩
      exact ⟨w, hw.trans (List.suffix_cons d sv), hmatch⟩

theorem finish (h : Search ts s p [] saved) : Matches ts s ↔ ∀ t ∈ p, t = .star := by
  rw [← matches_nil]
  cases h with
  | fresh h => exact h
  | @saved done _ u _ hdone hu h =>
    refine h.trans ⟨?_, fun hp => ?_⟩
    · rintro ⟨w, hw, hmatch⟩
      obtain ⟨u', w', rfl, hu', hw'⟩ := matches_append.mp hmatch
      have hlen : u'.length = u.length := (hdone.length_eq hu').trans (hdone.length_eq hu).symm
      have hle := hw.length_le
      rw [List.length_append, List.append_nil] at hle
      rwa [List.length_eq_zero_iff.mp (by omega : w'.length = 0)] at hw'
    · exact ⟨u ++ [], List.suffix_refl _, matches_append.mpr ⟨u, [], rfl, hu, hp⟩⟩

end Search

/-- The string is split among the parts, each of which is any one of its terms. -/
def Splits : List (List (List (Token α))) → List α → Prop
  | [], s => s = []
  | terms :: parts, s => ∃ u w, s = u ++ w ∧ (∃ term ∈ terms, Matches term u) ∧ Splits parts w

theorem splits_iff {parts : List (List (List (Token α)))} {s : List α} :
    Splits parts s ↔ ∃ choice, List.Forall₂ (· ∈ ·) choice parts ∧ Matches choice.flatten s := by
  induction parts generalizing s with
  | nil => simp [Splits, Matches]
  | cons terms parts ih =>
    simp only [Splits, ih]
    constructor
    · rintro ⟨u, w, rfl, ⟨term, hterm, hu⟩, choice, hchoice, hw⟩
      exact ⟨term :: choice, List.Forall₂.cons hterm hchoice,
        matches_append.mpr ⟨u, w, rfl, hu, hw⟩⟩
    · rintro ⟨_, hchoice, hmatch⟩
      cases hchoice with
      | @cons term _ choice _ hterm hchoice =>
        obtain ⟨u, w, rfl, hu, hw⟩ := matches_append.mp hmatch
        exact ⟨u, w, rfl, ⟨term, hterm, hu⟩, choice, hchoice, hw⟩

theorem splits_singletons {ts : List (Token α)} {s : List α} :
    Splits (ts.map fun t => [[t]]) s ↔ Matches ts s := by
  induction ts generalizing s with
  | nil => rfl
  | cons t ts ih =>
    rw [← List.singleton_append, matches_append]
    simp [Splits, ih]

theorem splits_literals [BEq α] [LawfulBEq α] {cs : List α}
    {parts : List (List (List (Token α)))} {s : List α} :
    Splits (cs.map (fun c => [[.one (· == c)]]) ++ parts) s ↔ ∃ w, s = cs ++ w ∧ Splits parts w := by
  induction cs generalizing s with
  | nil => simp
  | cons c cs ih =>
    simp only [List.map_cons, List.cons_append, Splits, ih, List.mem_singleton, exists_eq_left,
      Matches, beq_iff_eq]
    constructor
    · rintro ⟨_, _, rfl, ⟨_, _, rfl, rfl, rfl⟩, w, rfl, hw⟩
      exact ⟨w, rfl, hw⟩
    · rintro ⟨w, rfl, hw⟩
      exact ⟨[c], cs ++ w, rfl, ⟨c, [], rfl, rfl, rfl⟩, w, rfl, hw⟩

theorem exists_choice {β : Type} {R : List α → List β → Prop} (hnil : R [] [])
    (happend : ∀ x y x' y', R x y → R x' y' → R (x ++ x') (y ++ y')) {xss : List (List (List α))}
    {yss : List (List (List β))} (h : List.Forall₂ (List.Forall₂ R) xss yss)
    {choice : List (List α)} (hchoice : List.Forall₂ (· ∈ ·) choice xss) :
    ∃ choice', List.Forall₂ (· ∈ ·) choice' yss ∧ R choice.flatten choice'.flatten := by
  induction h generalizing choice with
  | nil =>
    cases hchoice
    exact ⟨[], .nil, hnil⟩
  | cons hxs _ ih =>
    cases hchoice with
    | @cons x _ _ _ hx hchoice =>
      obtain ⟨choice', hchoice', hR⟩ := ih hchoice
      obtain ⟨i, hi, rfl⟩ := List.getElem_of_mem hx
      have hi' := hxs.length_eq ▸ hi
      exact ⟨_ :: choice', .cons (List.getElem_mem hi') hchoice',
        happend _ _ _ _ (hxs.get hi hi') hR⟩

end SmlnjLlvm.Wildcards
