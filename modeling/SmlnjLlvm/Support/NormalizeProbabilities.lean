import SmlnjLlvm.Support.BranchProbability

/-!
# Normalised branch probabilities

The probabilities that are not known share what the known ones leave, or all
probabilities are rescaled by their sum. The sum of the results misses one by at
most a unit for each of them.
-/

namespace SmlnjLlvm.Support.BranchProbability

open Words RoundedShares

def getZero : BranchProbability := ⟨0⟩

/-- The sum of the known probabilities, and the number of the others. -/
def accumulateKnown (Ps : List BranchProbability) : BitVec 64 × BitVec 32 :=
  Ps.foldl (fun (S, UnknownProbCount) BP =>
    if !BP.isUnknown then (S + BP.N.setWidth 64, UnknownProbCount)
    else (S, UnknownProbCount + 1)) (0, 0)

/-- The numerator in units of the sum. -/
def rescale (Sum : BitVec 64) (P : BranchProbability) : BranchProbability :=
  ⟨((P.N.setWidth 64 * D.setWidth 64 + Sum / 2) / Sum).setWidth 32⟩

/-- The probabilities when all are known. -/
def normalizeKnown (Sum : BitVec 64) (Ps : List BranchProbability) :
    Option (List BranchProbability) :=
  if Sum = 0 then do
    let BP ← ofFraction 1 (BitVec.ofNat 32 Ps.length)
    return Ps.map fun _ => BP
  else some (Ps.map (rescale Sum))

def normalizeProbabilities (Ps : List BranchProbability) : Option (List BranchProbability) :=
  if Ps.isEmpty then some Ps
  else
    let (Sum, UnknownProbCount) := accumulateKnown Ps
    if 0 < UnknownProbCount then
      let ProbForUnknown :=
        if Sum < D.setWidth 64 then
          ⟨((D.setWidth 64 - Sum) / UnknownProbCount.setWidth 64).setWidth 32⟩
        else getZero
      let Ps := Ps.map fun BP => if BP.isUnknown then ProbForUnknown else BP
      if Sum ≤ D.setWidth 64 then some Ps
      else normalizeKnown Sum Ps
    else normalizeKnown Sum Ps

/-- Known, and at most one. -/
def Known (P : BranchProbability) : Prop := P.N.toNat ≤ 2 ^ 31

instance (P : BranchProbability) : Decidable P.Known := inferInstanceAs (Decidable (_ ≤ _))

def sumN (Ps : List BranchProbability) : Nat := (Ps.map fun P => P.N.toNat).sum

/-- The numerator, where it is known. -/
def knownN (P : BranchProbability) : Nat := if P.isUnknown then 0 else P.N.toNat

def knownSum (Ps : List BranchProbability) : Nat := (Ps.map knownN).sum

def unknownCount (Ps : List BranchProbability) : Nat := Ps.countP isUnknown

variable {Ps Qs : List BranchProbability} {P Q : BranchProbability}

theorem Known.isUnknown_eq (h : P.Known) : P.isUnknown = false :=
  isUnknown_of_lt (Nat.lt_of_le_of_lt h (by decide))

theorem Known.knownN_eq (h : P.Known) : P.knownN = P.N.toNat := by
  rw [knownN, h.isUnknown_eq]
  rfl

theorem knownSum_cons (P : BranchProbability) (Ps : List BranchProbability) :
    knownSum (P :: Ps) = P.knownN + knownSum Ps := rfl

theorem unknownCount_cons (P : BranchProbability) (Ps : List BranchProbability) :
    unknownCount (P :: Ps) = unknownCount Ps + if P.isUnknown then 1 else 0 := by
  unfold unknownCount
  rw [List.countP_cons]

theorem knownSum_le (h : ∀ P ∈ Ps, P.isUnknown = true ∨ P.Known) :
    knownSum Ps ≤ Ps.length * 2 ^ 31 := by
  induction Ps with
  | nil => simp [knownSum]
  | cons P Ps ih =>
    have htail := ih fun Q hQ => h Q (List.mem_cons_of_mem P hQ)
    have hhead : P.knownN ≤ 2 ^ 31 := by
      rcases h P List.mem_cons_self with hunknown | hknown
      · simp [knownN, hunknown]
      · rw [hknown.knownN_eq]
        exact hknown
    rw [knownSum_cons, List.length_cons, Nat.succ_mul]
    omega

theorem foldl_accumulate (Ps : List BranchProbability) (S : BitVec 64) (C : BitVec 32)
    (hS : S.toNat + knownSum Ps < 2 ^ 64) (hC : C.toNat + unknownCount Ps < 2 ^ 32) :
    ∃ S' C', Ps.foldl (fun (S, UnknownProbCount) BP =>
        if !BP.isUnknown then (S + BP.N.setWidth 64, UnknownProbCount)
        else (S, UnknownProbCount + 1)) (S, C) = (S', C') ∧
      S'.toNat = S.toNat + knownSum Ps ∧ C'.toNat = C.toNat + unknownCount Ps := by
  induction Ps generalizing S C with
  | nil => exact ⟨S, C, rfl, by simp [knownSum], by simp [unknownCount]⟩
  | cons P Ps ih =>
    rw [knownSum_cons, knownN] at hS ⊢
    rw [unknownCount_cons] at hC ⊢
    rw [List.foldl_cons]
    cases h : P.isUnknown with
    | false =>
      simp only [h, Bool.false_eq_true, if_false] at hS hC ⊢
      have hadd : (S + P.N.setWidth 64).toNat = S.toNat + P.N.toNat := by
        rw [toNat_add_of_lt, toNat_setWidth_wide]
        rw [toNat_setWidth_wide]
        omega
      obtain ⟨S', C', hrun, hS', hC'⟩ := ih (S + P.N.setWidth 64) C (by omega) (by omega)
      exact ⟨S', C', hrun, by omega, by omega⟩
    | true =>
      simp only [h, if_true] at hS hC ⊢
      have hadd : (C + 1).toNat = C.toNat + 1 := by
        rw [toNat_add_of_lt]
        · rfl
        · show C.toNat + 1 < 2 ^ 32
          omega
      obtain ⟨S', C', hrun, hS', hC'⟩ := ih S (C + 1) (by omega) (by omega)
      exact ⟨S', C', hrun, by omega, by omega⟩

theorem accumulateKnown_spec (hlength : Ps.length < 2 ^ 31)
    (h : ∀ P ∈ Ps, P.isUnknown = true ∨ P.Known) :
    ∃ Sum Count, accumulateKnown Ps = (Sum, Count) ∧ Sum.toNat = knownSum Ps ∧
      Count.toNat = unknownCount Ps := by
  have hsum := knownSum_le h
  have hcount : unknownCount Ps ≤ Ps.length := List.countP_le_length
  obtain ⟨Sum, Count, hrun, hSum, hCount⟩ := foldl_accumulate Ps 0 0
    (by show 0 + _ < _; omega) (by show 0 + _ < _; omega)
  refine ⟨Sum, Count, hrun, ?_, ?_⟩
  · rw [hSum]
    exact Nat.zero_add _
  · rw [hCount]
    exact Nat.zero_add _

/-- What is asked of the normalised probabilities `Qs` of `Ps`. -/
structure Normalized (Ps Qs : List BranchProbability) : Prop where
  length : Qs.length = Ps.length
  known : ∀ Q ∈ Qs, Q.Known
  ordered : ∀ (i j : Nat) (P P' Q Q' : BranchProbability), Ps[i]? = some P → Ps[j]? = some P' →
    Qs[i]? = some Q → Qs[j]? = some Q' → P.isUnknown = false → P'.isUnknown = false →
      P.N.toNat ≤ P'.N.toNat → Q.N.toNat ≤ Q'.N.toNat
  unchanged : (∃ P ∈ Ps, P.isUnknown = true) → knownSum Ps ≤ 2 ^ 31 →
    ∀ (i : Nat) (P : BranchProbability), Ps[i]? = some P → P.isUnknown = false → Qs[i]? = some P
  sum : |(sumN Qs : ℤ) - 2 ^ 31| ≤ (Ps.length : ℤ)

theorem Normalized.of_map {f : BranchProbability → BranchProbability}
    (hknown : ∀ P ∈ Ps, (f P).Known)
    (hmono : ∀ P ∈ Ps, ∀ P' ∈ Ps, P.knownN ≤ P'.knownN → P.isUnknown = false →
      P'.isUnknown = false → (f P).N.toNat ≤ (f P').N.toNat)
    (hfix : (∃ P ∈ Ps, P.isUnknown = true) → knownSum Ps ≤ 2 ^ 31 → ∀ P, P.isUnknown = false →
      f P = P)
    (hsum : |(sumN (Ps.map f) : ℤ) - 2 ^ 31| ≤ (Ps.length : ℤ)) : Normalized Ps (Ps.map f) where
  length := List.length_map f
  known := by
    intro Q hQ
    obtain ⟨P, hP, rfl⟩ := List.mem_map.mp hQ
    exact hknown P hP
  ordered := by
    intro i j P P' Q Q' hP hP' hQ hQ' hu hu' hle
    rw [List.getElem?_map, hP] at hQ
    rw [List.getElem?_map, hP'] at hQ'
    cases hQ
    cases hQ'
    apply hmono P (List.mem_of_getElem? hP) P' (List.mem_of_getElem? hP') _ hu hu'
    simpa [knownN, hu, hu'] using hle
  unchanged := by
    intro hex hle i P hP hu
    rw [List.getElem?_map, hP, Option.map_some, hfix hex hle P hu]
  sum := hsum

/-- Each unknown probability is replaced. -/
def fill (p : BranchProbability) (P : BranchProbability) : BranchProbability :=
  if P.isUnknown then p else P

theorem sumN_fill (p : BranchProbability) (Ps : List BranchProbability) :
    sumN (Ps.map (fill p)) = knownSum Ps + unknownCount Ps * p.N.toNat := by
  induction Ps with
  | nil => simp [sumN, knownSum, unknownCount]
  | cons P Ps ih =>
    have hcons : sumN ((P :: Ps).map (fill p)) =
        (fill p P).N.toNat + sumN (Ps.map (fill p)) := rfl
    rw [hcons, ih, knownSum_cons, unknownCount_cons, knownN, fill]
    cases P.isUnknown with
    | false =>
      simp only [Bool.false_eq_true, if_false]
      ring
    | true =>
      simp only [if_true]
      ring

theorem sumN_eq_of_forall {f : BranchProbability → BranchProbability} {g : Nat → Nat}
    (h : ∀ P ∈ Ps, (f P).N.toNat = g P.knownN) :
    sumN (Ps.map f) = ((Ps.map knownN).map g).sum := by
  unfold sumN
  rw [List.map_map, List.map_map]
  congr 1
  exact List.map_congr_left h

theorem normalized_fill {p : BranchProbability} (hvalid : ∀ P ∈ Ps, P.isUnknown = true ∨ P.Known)
    (hcount : 0 < unknownCount Ps) (hle : knownSum Ps ≤ 2 ^ 31)
    (hp : p.N.toNat = (2 ^ 31 - knownSum Ps) / unknownCount Ps) :
    Normalized Ps (Ps.map (fill p)) := by
  apply Normalized.of_map
  · intro P hP
    rcases hvalid P hP with hunknown | hknown
    · rw [fill, if_pos hunknown, Known, hp]
      exact (Nat.div_le_self _ _).trans (Nat.sub_le _ _)
    · rwa [fill, hknown.isUnknown_eq, if_neg Bool.false_ne_true]
  · intro P _ P' _ hle hu hu'
    simpa [fill, knownN, hu, hu'] using hle
  · intro _ _ P hu
    rw [fill, hu, if_neg Bool.false_ne_true]
  · have hdiv := Nat.div_add_mod (2 ^ 31 - knownSum Ps) (unknownCount Ps)
    have hmod := Nat.mod_lt (2 ^ 31 - knownSum Ps) hcount
    have hlength : unknownCount Ps ≤ Ps.length := List.countP_le_length
    rw [← hp] at hdiv
    rw [sumN_fill, abs_le]
    constructor <;> omega

theorem normalized_shares {f : BranchProbability → BranchProbability} (hpos : 0 < knownSum Ps)
    (hlarge : (∃ P ∈ Ps, P.isUnknown = true) → 2 ^ 31 < knownSum Ps)
    (h : ∀ P ∈ Ps, (f P).N.toNat = share (2 ^ 31) (knownSum Ps) P.knownN) :
    Normalized Ps (Ps.map f) := by
  have hle : ∀ P ∈ Ps, P.knownN ≤ knownSum Ps := fun P hP =>
    List.single_le_sum (fun _ _ => Nat.zero_le _) _ (List.mem_map_of_mem hP)
  apply Normalized.of_map
  · intro P hP
    rw [Known, h P hP]
    exact share_le hpos (hle P hP)
  · intro P hP P' hP' hle _ _
    rw [h P hP, h P' hP']
    exact share_mono _ _ hle
  · intro hex hsmall
    exact absurd (hlarge hex) (by omega)
  · have hshares : |(((Ps.map knownN).map (share (2 ^ 31) (knownSum Ps))).sum : ℤ) -
        (2 ^ 31 : ℕ)| ≤ ((Ps.map knownN).length : ℤ) := sum_shares (2 ^ 31) hpos
    rw [sumN_eq_of_forall h]
    rwa [Nat.cast_pow, Nat.cast_ofNat, List.length_map] at hshares

/-! ## The four regimes -/

theorem toNat_D_wide : (D.setWidth 64).toNat = 2 ^ 31 := toNat_setWidth_wide D

theorem toNat_rescale {Sum : BitVec 64} (hpos : 0 < Sum.toNat) (hlt : Sum.toNat < 2 ^ 62)
    (hle : P.N.toNat ≤ Sum.toNat) :
    (rescale Sum P).N.toNat = share (2 ^ 31) Sum.toNat P.N.toNat := by
  have hmul : (P.N.setWidth 64 * D.setWidth 64).toNat = P.N.toNat * 2 ^ 31 := by
    rw [BitVec.toNat_mul, toNat_setWidth_wide, toNat_D_wide]
    omega
  have hhalf : (Sum / 2).toNat = Sum.toNat / 2 := BitVec.toNat_udiv
  have hsum : (P.N.setWidth 64 * D.setWidth 64 + Sum / 2).toNat =
      P.N.toNat * 2 ^ 31 + Sum.toNat / 2 := by
    rw [toNat_add_of_lt, hmul, hhalf]
    rw [hmul, hhalf]
    omega
  have hshare : share (2 ^ 31) Sum.toNat P.N.toNat ≤ 2 ^ 31 := share_le hpos hle
  rw [rescale, BitVec.toNat_setWidth, BitVec.toNat_udiv, hsum]
  exact Nat.mod_eq_of_lt (Nat.lt_of_le_of_lt hshare (by decide))

theorem normalizeKnown_zero {Sum : BitVec 64} (hzero : Sum.toNat = 0) (hne : Ps ≠ [])
    (hlength : Ps.length < 2 ^ 31) (hunknown : unknownCount Ps = 0) (hsum : knownSum Ps = 0) :
    ∃ Qs, normalizeKnown Sum Ps = some Qs ∧ Normalized Ps Qs := by
  have hpos : 0 < Ps.length := List.length_pos_iff.mpr hne
  have hDen : (BitVec.ofNat 32 Ps.length).toNat = Ps.length := by
    rw [BitVec.toNat_ofNat]
    omega
  have hone : (1 : BitVec 32).toNat = 1 := rfl
  obtain ⟨BP, hBP, hN⟩ := ofFraction_rounded (hpos.trans_eq hDen.symm)
    (show (1 : BitVec 32).toNat ≤ _ by rw [hDen, hone]; exact hpos)
  rw [hDen, hone] at hN
  refine ⟨Ps.map fun _ => BP, ?_, ?_⟩
  · unfold normalizeKnown
    rw [if_pos (BitVec.eq_of_toNat_eq hzero), hBP]
    rfl
  · have hzeros : ∀ P ∈ Ps, P.knownN = 0 := fun P hP => by
      have hle : P.knownN ≤ knownSum Ps :=
        List.single_le_sum (fun _ _ => Nat.zero_le _) _ (List.mem_map_of_mem hP)
      omega
    apply Normalized.of_map
    · intro _ _
      rw [Known, hN]
      exact share_le hpos hpos
    · intro _ _ _ _ _ _ _
      exact le_rfl
    · rintro ⟨P, hP, hu⟩
      have hcount : 0 < unknownCount Ps := List.countP_pos_iff.mpr ⟨P, hP, hu⟩
      omega
    · have herror := share_error (2 ^ 31) 1 hpos
      have hsumN : sumN (Ps.map fun _ => BP) = Ps.length * BP.N.toNat := by
        unfold sumN
        rw [List.map_map]
        simp [Function.comp_def]
      rw [hsumN, hN, abs_le]
      rw [abs_le] at herror
      constructor <;> omega

theorem normalizeKnown_pos {Sum : BitVec 64} (hvalid : ∀ P ∈ Ps, P.isUnknown = true ∨ P.Known)
    (hlength : Ps.length < 2 ^ 31) (hSum : Sum.toNat = knownSum Ps) (hpos : 0 < knownSum Ps)
    (hlarge : (∃ P ∈ Ps, P.isUnknown = true) → 2 ^ 31 < knownSum Ps) :
    ∃ Qs, normalizeKnown Sum (Ps.map (fill getZero)) = some Qs ∧ Normalized Ps Qs := by
  have hle := knownSum_le hvalid
  have hne : Sum ≠ 0 := BitVec.toNat_ne.mpr (Nat.ne_of_gt (hSum ▸ hpos))
  refine ⟨Ps.map (rescale Sum ∘ fill getZero), ?_, ?_⟩
  · unfold normalizeKnown
    rw [if_neg hne, List.map_map]
  · apply normalized_shares hpos hlarge
    intro P hP
    have hfill : (fill getZero P).N.toNat = P.knownN := by
      unfold fill knownN
      cases P.isUnknown <;> rfl
    have hmem : P.knownN ≤ knownSum Ps :=
      List.single_le_sum (fun _ _ => Nat.zero_le _) _ (List.mem_map_of_mem hP)
    rw [Function.comp, toNat_rescale (by omega) (by omega) (by omega), hfill, hSum]

theorem fill_eq_self (h : unknownCount Ps = 0) (p : BranchProbability) :
    Ps.map (fill p) = Ps := by
  rw [unknownCount, List.countP_eq_zero] at h
  conv_rhs => rw [← List.map_id Ps]
  apply List.map_congr_left
  intro P hP
  rw [fill, if_neg (h P hP)]
  rfl

/-- A list of known and unknown probabilities is normalised, in each regime. -/
theorem normalizeProbabilities_normalized (Ps : List BranchProbability) (hne : Ps ≠ [])
    (hlength : Ps.length < 2 ^ 31) (hvalid : ∀ P ∈ Ps, P.isUnknown = true ∨ P.Known) :
    ∃ Qs, normalizeProbabilities Ps = some Qs ∧ Normalized Ps Qs := by
  obtain ⟨Sum, Count, hrun, hSum, hCount⟩ := accumulateKnown_spec hlength hvalid
  have hlt : 0 < Count ↔ 0 < unknownCount Ps := by
    rw [BitVec.lt_def, hCount]
    rfl
  have hless : Sum < D.setWidth 64 ↔ knownSum Ps < 2 ^ 31 := by
    rw [BitVec.lt_def, hSum, toNat_D_wide]
  have hatmost : Sum ≤ D.setWidth 64 ↔ knownSum Ps ≤ 2 ^ 31 := by
    rw [BitVec.le_def, hSum, toNat_D_wide]
  unfold normalizeProbabilities
  rw [if_neg (by simpa using hne), hrun]
  dsimp only
  by_cases hcount : 0 < unknownCount Ps
  · rw [if_pos (hlt.mpr hcount)]
    by_cases hle : knownSum Ps ≤ 2 ^ 31
    · rw [if_pos (hatmost.mpr hle)]
      refine ⟨_, rfl, normalized_fill hvalid hcount hle ?_⟩
      by_cases hless' : knownSum Ps < 2 ^ 31
      · rw [if_pos (hless.mpr hless')]
        have hdiff : (D.setWidth 64 - Sum).toNat = 2 ^ 31 - knownSum Ps := by
          rw [BitVec.toNat_sub_of_le (hatmost.mpr hle), toNat_D_wide, hSum]
        have hbound : (2 ^ 31 - knownSum Ps) / unknownCount Ps ≤ 2 ^ 31 :=
          (Nat.div_le_self _ _).trans (Nat.sub_le _ _)
        rw [BitVec.toNat_setWidth, BitVec.toNat_udiv, hdiff, toNat_setWidth_wide, hCount]
        exact Nat.mod_eq_of_lt (Nat.lt_of_le_of_lt hbound (by decide))
      · rw [if_neg (hless.not.mpr hless'), show 2 ^ 31 - knownSum Ps = 0 by omega, Nat.zero_div]
        rfl
    · rw [if_neg (hatmost.not.mpr hle), if_neg (hless.not.mpr (by omega))]
      exact normalizeKnown_pos hvalid hlength hSum (by omega) fun _ => by omega
  · rw [if_neg (hlt.not.mpr hcount)]
    have hnone : unknownCount Ps = 0 := by omega
    rcases Nat.eq_zero_or_pos (knownSum Ps) with hzero | hpos
    · exact normalizeKnown_zero (hSum.trans hzero) hne hlength hnone hzero
    · have hrest := normalizeKnown_pos hvalid hlength hSum hpos fun ⟨P, hP, hu⟩ =>
        absurd (List.countP_pos_iff.mpr ⟨P, hP, hu⟩) hcount
      rwa [fill_eq_self hnone] at hrest

theorem normalizeProbabilities_normalized_mixed :
    ∃ Qs, normalizeProbabilities [⟨UnknownN⟩, ⟨D⟩, ⟨5⟩] = some Qs ∧
      Normalized [⟨UnknownN⟩, ⟨D⟩, ⟨5⟩] Qs :=
  normalizeProbabilities_normalized _ (by decide) (by decide) (by decide)

end SmlnjLlvm.Support.BranchProbability
