import Mathlib.Data.List.TakeWhile
import SmlnjLlvm.DebugInfo.GsymLineTable

/-!
# The range of line deltas

The range that the encoder picks is never empty and never larger than
`MaxLineRange`, and special opcodes pack a line delta of the range with an
address delta.
-/

namespace SmlnjLlvm.Gsym

/-! ## The deltas that are collected -/

theorem mem_countDelta {LineDelta : Int} {infos : List DeltaInfo} {info : DeltaInfo}
    (h : info ∈ countDelta LineDelta infos) :
    info.Delta = LineDelta ∨ ∃ old ∈ infos, info.Delta = old.Delta := by
  induction infos with
  | nil =>
    rw [countDelta, List.mem_singleton] at h
    exact Or.inl (h ▸ rfl)
  | cons first rest ih =>
    unfold countDelta at h
    split_ifs at h with hlt heq
    · rcases List.mem_cons.mp h with rfl | h
      · exact Or.inr ⟨_, List.mem_cons_self, rfl⟩
      · rcases ih h with heq | ⟨old, hold, heq⟩
        · exact Or.inl heq
        · exact Or.inr ⟨old, List.mem_cons_of_mem _ hold, heq⟩
    · rcases List.mem_cons.mp h with rfl | h
      · exact Or.inl heq
      · exact Or.inr ⟨info, List.mem_cons_of_mem _ h, rfl⟩
    · rcases List.mem_cons.mp h with rfl | h
      · exact Or.inl rfl
      · exact Or.inr ⟨info, h, rfl⟩

theorem countDelta_ne_nil (LineDelta : Int) (infos : List DeltaInfo) :
    countDelta LineDelta infos ≠ [] := by
  cases infos with
  | nil => simp [countDelta]
  | cons first rest =>
    unfold countDelta
    split_ifs <;> simp

theorem countDelta_sorted {LineDelta : Int} {infos : List DeltaInfo}
    (h : infos.Pairwise fun a b => a.Delta < b.Delta) :
    (countDelta LineDelta infos).Pairwise fun a b => a.Delta < b.Delta := by
  induction infos with
  | nil => simp [countDelta]
  | cons first rest ih =>
    rw [List.pairwise_cons] at h
    unfold countDelta
    split_ifs with hlt heq
    · refine List.pairwise_cons.mpr ⟨?_, ih h.2⟩
      intro info hinfo
      rcases mem_countDelta hinfo with heq | ⟨old, hold, heq⟩
      · rw [heq]
        exact hlt
      · rw [heq]
        exact h.1 old hold
    · exact List.pairwise_cons.mpr ⟨h.1, h.2⟩
    · refine List.pairwise_cons.mpr ⟨?_, List.pairwise_cons.mpr h⟩
      intro info hinfo
      have hfirst : LineDelta < first.Delta := by omega
      rcases List.mem_cons.mp hinfo with rfl | hinfo
      · exact hfirst
      · exact hfirst.trans (h.1 info hinfo)

/-- What holds while the deltas are collected. -/
structure DeltaScan.Valid (s : DeltaScan) : Prop where
  sorted : s.DeltaInfos.Pairwise fun a b => a.Delta < b.Delta
  prev : 0 ≤ s.PrevLine ∧ s.PrevLine < 2 ^ 32
  range : s.DeltaInfos ≠ [] → s.MinLineDelta ≤ s.MaxLineDelta
  start : s.DeltaInfos = [] → s.MinLineDelta = 2 ^ 63 - 1 ∧ s.MaxLineDelta = -2 ^ 63
  bounds : s.DeltaInfos ≠ [] → -2 ^ 32 < s.MinLineDelta ∧ s.MaxLineDelta < 2 ^ 32
  within : ∀ info ∈ s.DeltaInfos, s.MinLineDelta ≤ info.Delta ∧ info.Delta ≤ s.MaxLineDelta

theorem DeltaScan.Valid.turn {s : DeltaScan} (h : s.Valid) (line_entry : LineEntry) :
    (s.turn line_entry).Valid := by
  have hprev := h.prev
  have hne : (s.turn line_entry).DeltaInfos ≠ [] := countDelta_ne_nil _ _
  by_cases hnil : s.DeltaInfos = []
  · obtain ⟨hmin, hmax⟩ := h.start hnil
    refine ⟨countDelta_sorted h.sorted, ⟨?_, ?_⟩, fun _ => ?_, fun hnil => absurd hnil hne,
      fun _ => ?_, ?_⟩
    · simp [DeltaScan.turn]
    · simp only [DeltaScan.turn]
      omega
    · simp only [DeltaScan.turn, hmin, hmax]
      split_ifs <;> omega
    · simp only [DeltaScan.turn, hmin, hmax]
      split_ifs <;> omega
    · intro info hinfo
      simp only [DeltaScan.turn, hnil, countDelta, List.mem_singleton] at hinfo
      simp only [DeltaScan.turn, hmin, hmax, hinfo]
      split_ifs <;> omega
  · have hrange := h.range hnil
    have hbounds := h.bounds hnil
    refine ⟨countDelta_sorted h.sorted, ⟨?_, ?_⟩, fun _ => ?_, fun hnil => absurd hnil hne,
      fun _ => ?_, ?_⟩
    · simp [DeltaScan.turn]
    · simp only [DeltaScan.turn]
      omega
    · simp only [DeltaScan.turn]
      split_ifs <;> omega
    · simp only [DeltaScan.turn]
      split_ifs <;> omega
    · intro info hinfo
      rcases mem_countDelta hinfo with heq | ⟨old, hold, heq⟩
      · simp only [DeltaScan.turn, heq]
        split_ifs <;> omega
      · have hwithin := h.within old hold
        simp only [DeltaScan.turn, heq]
        split_ifs <;> omega

theorem DeltaScan.run_valid (first : LineEntry) (rest : List LineEntry) :
    (DeltaScan.run (first :: rest)).Valid ∧
      (rest ≠ [] → (DeltaScan.run (first :: rest)).DeltaInfos ≠ []) := by
  have hfirst : DeltaScan.Valid ⟨first.Line.toNat, [], 2 ^ 63 - 1, -2 ^ 63⟩ := by
    refine ⟨List.Pairwise.nil, ⟨?_, ?_⟩, fun h => absurd rfl h, fun _ => ⟨rfl, rfl⟩,
      fun h => absurd rfl h, fun info h => nomatch h⟩
    · simp
    · show (first.Line.toNat : Int) < 2 ^ 32
      omega
  have hfold : ∀ (rest : List LineEntry) (s : DeltaScan), s.Valid →
      (rest.foldl DeltaScan.turn s).Valid ∧
        (rest ≠ [] ∨ s.DeltaInfos ≠ [] → (rest.foldl DeltaScan.turn s).DeltaInfos ≠ []) := by
    intro rest
    induction rest with
    | nil =>
      intro s hs
      exact ⟨hs, fun h => h.resolve_left fun h => h rfl⟩
    | cons e rest ih =>
      intro s hs
      obtain ⟨hvalid, hne⟩ := ih (s.turn e) (hs.turn e)
      exact ⟨hvalid, fun _ => hne (Or.inr (countDelta_ne_nil _ _))⟩
  obtain ⟨hvalid, hne⟩ := hfold rest _ hfirst
  exact ⟨hvalid, fun h => hne (Or.inl h)⟩

/-! ## The best range -/

theorem countRange_fst (FirstDelta : Int) (infos : List DeltaInfo) (J : Nat)
    (CurrCount : BitVec 32) : (countRange FirstDelta infos J CurrCount).1 =
      J + (infos.takeWhile fun info => info.Delta - FirstDelta ≤ MaxLineRange).length := by
  induction infos generalizing J CurrCount with
  | nil => rfl
  | cons info rest ih =>
    unfold countRange
    rw [List.takeWhile_cons]
    split_ifs with hout hin hin
    · rw [decide_eq_true_iff] at hin
      omega
    · rfl
    · rw [ih, List.length_cons]
      omega
    · rw [decide_eq_true_iff] at hin
      omega

/-- Both ends of the range are deltas, and it is not too large. -/
def BestRange.Fits (infos : List DeltaInfo) (best : BestRange) : Prop :=
  ∃ first last, infos[best.BestIndex]? = some first ∧ infos[best.BestEndIndex]? = some last ∧
    first.Delta ≤ last.Delta ∧ last.Delta - first.Delta ≤ MaxLineRange

theorem bestRange_fits {infos rest : List DeltaInfo} {I : Nat} {best : BestRange}
    (hsorted : infos.Pairwise fun a b => a.Delta < b.Delta) (hrest : infos.drop I = rest)
    (hbest : best.Fits infos) : (bestRange rest I best).Fits infos := by
  induction rest generalizing I best with
  | nil => exact hbest
  | cons info rest ih =>
    have hI : infos[I]? = some info := by
      rw [← Nat.add_zero I, ← List.getElem?_drop, hrest]
      rfl
    have hnext : infos.drop (I + 1) = rest := by
      rw [← List.drop_drop, hrest]
      rfl
    unfold bestRange
    refine ih hnext ?_
    split_ifs with hbetter
    · -- The last delta before the range is left.
      generalize hinside : (info :: rest).takeWhile
        (fun x => x.Delta - info.Delta ≤ MaxLineRange) = inside
      have hpos : inside ≠ [] := by
        rw [← hinside, List.takeWhile_cons]
        simp [MaxLineRange]
      have hlen := List.length_pos_of_ne_nil hpos
      have hlast : inside[inside.length - 1]? = some (inside.getLast hpos) := by
        rw [List.getElem?_eq_getElem (by omega), List.getLast_eq_getElem]
      have hmem : inside.getLast hpos ∈ inside := List.getLast_mem hpos
      have hpre : inside <+: info :: rest := hinside ▸ List.takeWhile_prefix _
      have hin : ∀ x ∈ inside, x.Delta - info.Delta ≤ MaxLineRange := by
        intro x hx
        rw [← hinside] at hx
        have hdecide := List.mem_takeWhile_imp hx
        exact of_decide_eq_true hdecide
      refine ⟨info, inside.getLast hpos, hI, ?_, ?_, hin _ hmem⟩
      · have hidx : (countRange info.Delta (info :: rest) I 0).1 - 1 = I + (inside.length - 1) := by
          rw [countRange_fst, hinside]
          omega
        show infos[(countRange info.Delta (info :: rest) I 0).1 - 1]? = _
        rw [hidx, ← List.getElem?_drop, hrest]
        obtain ⟨after, hafter⟩ := hpre
        rw [← hafter, List.getElem?_append_left (by omega)]
        exact hlast
      · have hmem' : inside.getLast hpos ∈ info :: rest := hpre.subset hmem
        rcases List.mem_cons.mp hmem' with heq | hrest'
        · rw [heq]
        · have hpair := hsorted.sublist (List.drop_sublist I infos)
          rw [hrest, List.pairwise_cons] at hpair
          exact (hpair.1 _ hrest').le
    · exact hbest

/-- The deltas are too many for the counter of the loop that looks for the best range. -/
def TooManyDeltas (Lines : List LineEntry) : Prop :=
  MaxLineRange < (DeltaScan.run Lines).MaxLineDelta - (DeltaScan.run Lines).MinLineDelta ∧
    2 ^ 32 ≤ (DeltaScan.run Lines).DeltaInfos.length

/-- A range that special opcodes can work with. -/
structure UsableRange (MinLineDelta MaxLineDelta : Int) : Prop where
  le : MinLineDelta ≤ MaxLineDelta
  size : MaxLineDelta - MinLineDelta ≤ MaxLineRange
  lower : -2 ^ 32 < MinLineDelta
  upper : MaxLineDelta < 2 ^ 32

theorem UsableRange.adjusted {MinLineDelta MaxLineDelta : Int}
    (h : UsableRange MinLineDelta MaxLineDelta) :
    UsableRange (if MinLineDelta = MaxLineDelta ∧ 0 < MinLineDelta ∧ MinLineDelta < MaxLineRange
      then 0 else MinLineDelta) MaxLineDelta := by
  obtain ⟨hle, hsize, hlower, hupper⟩ := h
  split_ifs with hone
  · exact ⟨by omega, by omega, by omega, hupper⟩
  · exact ⟨hle, hsize, hlower, hupper⟩

theorem pickRange_usable {first : LineEntry} {rest : List LineEntry}
    (hfew : ¬TooManyDeltas (first :: rest)) :
    ∃ MinLineDelta MaxLineDelta,
      pickRange (first :: rest) = some (MinLineDelta, MaxLineDelta) ∧
        UsableRange MinLineDelta MaxLineDelta := by
  obtain ⟨hvalid, hdeltas⟩ := DeltaScan.run_valid first rest
  unfold TooManyDeltas at hfew
  unfold pickRange
  generalize DeltaScan.run (first :: rest) = s at hvalid hdeltas hfew ⊢
  dsimp only
  split_ifs with hone hfar hcount
  · exact ⟨0, 0, rfl, by decide, by decide, by decide, by decide⟩
  · have hne : s.DeltaInfos ≠ [] := hdeltas (by rintro rfl; exact hone rfl)
    obtain ⟨info, infos, hinfos⟩ := List.exists_cons_of_ne_nil hne
    have hstart : BestRange.Fits s.DeltaInfos ⟨0, 0, 0⟩ := by
      refine ⟨info, info, ?_, ?_, le_refl _, ?_⟩
      · rw [hinfos]
        rfl
      · rw [hinfos]
        rfl
      · rw [sub_self]
        decide
    obtain ⟨a, b, ha, hb, hle, hsize⟩ := bestRange_fits hvalid.sorted rfl hstart
    rw [List.drop_zero] at ha hb
    have hbounds := hvalid.bounds hne
    have ha' := hvalid.within a (List.mem_of_getElem? ha)
    have hb' := hvalid.within b (List.mem_of_getElem? hb)
    refine ⟨a.Delta, b.Delta, ?_, hle, hsize, by omega, by omega⟩
    rw [ha, hb]
    rfl
  · exact absurd ⟨hfar, not_lt.mp hcount⟩ hfew
  · have hne : s.DeltaInfos ≠ [] := hdeltas (by rintro rfl; exact hone rfl)
    have hbounds := hvalid.bounds hne
    exact ⟨_, _, rfl, hvalid.range hne, not_lt.mp hfar, hbounds.1, hbounds.2⟩

theorem lineDeltaRange_usable {first : LineEntry} {rest : List LineEntry}
    (hfew : ¬TooManyDeltas (first :: rest)) :
    ∃ MinLineDelta MaxLineDelta,
      lineDeltaRange (first :: rest) = some (MinLineDelta, MaxLineDelta) ∧
        UsableRange MinLineDelta MaxLineDelta := by
  obtain ⟨MinLineDelta, MaxLineDelta, hpick, husable⟩ := pickRange_usable hfew
  refine ⟨_, MaxLineDelta, ?_, husable.adjusted⟩
  unfold lineDeltaRange
  rw [hpick]
  exact if_pos husable.adjusted.le

theorem lineDeltaRange_tooMany {first : LineEntry} {rest : List LineEntry}
    (hmany : TooManyDeltas (first :: rest)) : lineDeltaRange (first :: rest) = none := by
  obtain ⟨hfar, hcount⟩ := hmany
  have hlong : (first :: rest).length ≠ 1 := by
    intro hone
    obtain rfl : rest = [] := List.length_eq_zero_iff.mp (Nat.succ.inj hone)
    have hnone : (DeltaScan.run [first]).DeltaInfos.length = 0 := rfl
    omega
  unfold lineDeltaRange pickRange
  rw [if_neg hlong, if_pos hfar, if_neg (Nat.not_lt.mpr hcount)]
  rfl

section Special

variable {MinLineDelta MaxLineDelta LineDelta : Int} {AddrDelta : BitVec 64}

/-- The adjusted opcode as it would be without overflow. -/
def specialValue (MinLineDelta MaxLineDelta LineDelta : Int) (AddrDelta : BitVec 64) : Nat :=
  (LineDelta - MinLineDelta).toNat + AddrDelta.toNat * (MaxLineDelta - MinLineDelta + 1).toNat

/-- The line delta is in the range. -/
def InRange (MinLineDelta MaxLineDelta LineDelta : Int) : Prop :=
  MinLineDelta ≤ LineDelta ∧ LineDelta ≤ MaxLineDelta

instance : Decidable (InRange MinLineDelta MaxLineDelta LineDelta) := instDecidableAnd

theorem toNat_adjustedOp (AddrDelta : BitVec 64) (h : UsableRange MinLineDelta MaxLineDelta)
    (hin : InRange MinLineDelta MaxLineDelta LineDelta) :
    (BitVec.ofInt 64 (LineDelta - MinLineDelta) +
        AddrDelta * BitVec.ofInt 64 (MaxLineDelta - MinLineDelta + 1) + 4).toNat =
      (specialValue MinLineDelta MaxLineDelta LineDelta AddrDelta + 4) % 2 ^ 64 := by
  have hsize := h.size
  unfold MaxLineRange at hsize
  obtain ⟨hlo, hhi⟩ := hin
  have hofInt : ∀ x : Int, 0 ≤ x → x < 2 ^ 64 → (BitVec.ofInt 64 x).toNat = x.toNat := by
    intro x h₀ h₁
    rw [BitVec.toNat_ofInt, Int.emod_eq_of_lt h₀ (by simpa using h₁)]
  have hfour : (4 : BitVec 64).toNat = 4 := rfl
  unfold specialValue
  rw [BitVec.toNat_add, BitVec.toNat_add, BitVec.toNat_mul, hofInt _ (by omega) (by omega),
    hofInt _ (by omega) (by omega), hfour]
  generalize AddrDelta.toNat * _ = product
  omega

theorem encodeSpecial_eq (h : UsableRange MinLineDelta MaxLineDelta) :
    encodeSpecial MinLineDelta MaxLineDelta LineDelta AddrDelta =
      if InRange MinLineDelta MaxLineDelta LineDelta ∧
          (specialValue MinLineDelta MaxLineDelta LineDelta AddrDelta + 4) % 2 ^ 64 ≤ 255 then
        some (UInt8.ofNat
          ((specialValue MinLineDelta MaxLineDelta LineDelta AddrDelta + 4) % 2 ^ 64))
      else none := by
  unfold encodeSpecial
  by_cases hin : InRange MinLineDelta MaxLineDelta LineDelta
  · have hop := toNat_adjustedOp AddrDelta h hin
    rw [if_neg (not_lt.mpr hin.1), if_neg (not_lt.mpr hin.2), ← hop]
    dsimp only
    generalize BitVec.ofInt 64 (LineDelta - MinLineDelta) +
      AddrDelta * BitVec.ofInt 64 (MaxLineDelta - MinLineDelta + 1) + 4 = Op
    have hcond := BitVec.toInt_eq_toNat_cond Op
    by_cases hsmall : Op.toNat ≤ 255
    · have hint : Op.toInt = Op.toNat := hcond.trans (if_pos (by omega))
      have hneg : ¬Op.toInt < 0 := by omega
      have hbig : ¬255 < Op.toInt := by omega
      rw [if_neg hneg, if_neg hbig, if_pos (And.intro hin hsmall)]
      congr 1
    · have hnot : ¬(InRange MinLineDelta MaxLineDelta LineDelta ∧ Op.toNat ≤ 255) :=
        fun hboth => hsmall hboth.2
      rw [if_neg hnot]
      by_cases hneg : Op.toInt < 0
      · exact if_pos hneg
      · have hbig : 255 < Op.toInt := by
          split at hcond <;> omega
        rw [if_neg hneg, if_pos hbig]
  · have hnot : ¬(InRange MinLineDelta MaxLineDelta LineDelta ∧
        (specialValue MinLineDelta MaxLineDelta LineDelta AddrDelta + 4) % 2 ^ 64 ≤ 255) :=
      fun hboth => hin hboth.1
    rw [if_neg hnot]
    by_cases hlo : LineDelta < MinLineDelta
    · exact if_pos hlo
    · have hhi : MaxLineDelta < LineDelta := by
        unfold InRange at hin
        omega
      rw [if_neg hlo, if_pos hhi]

end Special

end SmlnjLlvm.Gsym
