import SmlnjLlvm.Analysis.CombinedWeights

/-!
# The whole mass of a block is distributed

Normalization leaves positive weights that add up to a total of 32 bits, and
the last share takes what is left of the mass. The total has 33 bits only where
the sum of the weights had 65 bits, when the shift has no bit to spare for the
rounding.
-/

namespace SmlnjLlvm.BlockFrequency

open Support KeySums Words

/-- The sum of the amounts. -/
abbrev totalOf (ws : List Weight) : Nat := total Weight.size ws

theorem addAll_from {ws : List Weight} (hpos : ∀ W ∈ ws, W.Amount ≠ 0) (Dist : Distribution)
    (n : Nat) (hTotal : Dist.Total.toNat = n % 2 ^ 64) (hOverflow : Dist.DidOverflow = decide (2 ^ 64 ≤ n))
    (hsum : n + totalOf ws < 2 ^ 65) :
    ∃ Dist', ws.foldlM Distribution.add Dist = some Dist' ∧
      Dist'.Weights = Dist.Weights ++ ws ∧ Dist'.Total.toNat = (n + totalOf ws) % 2 ^ 64 ∧
      Dist'.DidOverflow = decide (2 ^ 64 ≤ n + totalOf ws) := by
  induction ws generalizing Dist n with
  | nil => exact ⟨Dist, rfl, (List.append_nil _).symm, hTotal, hOverflow⟩
  | cons W ws ih =>
    have hW := hpos W List.mem_cons_self
    rw [totalOf, total_cons] at hsum ⊢
    rw [← Nat.add_assoc] at hsum ⊢
    unfold Weight.size at hsum ⊢
    have hNew : (Dist.Total + W.Amount).toNat = (n + W.Amount.toNat) % 2 ^ 64 := by
      rw [BitVec.toNat_add, hTotal, Nat.mod_add_mod]
    have hwrap : Dist.Total + W.Amount < Dist.Total ↔
        n % 2 ^ 64 + W.Amount.toNat ≥ 2 ^ 64 := by
      rw [BitVec.lt_def, hNew, hTotal]
      omega
    have hguard : ¬(Dist.DidOverflow = true ∧
        decide (Dist.Total + W.Amount < Dist.Total) = true) := by
      rw [hOverflow, decide_eq_true_iff, decide_eq_true_iff, hwrap]
      omega
    have hadd : Distribution.add Dist W = some ⟨Dist.Weights ++ [W], Dist.Total + W.Amount,
        Dist.DidOverflow || decide (Dist.Total + W.Amount < Dist.Total)⟩ := by
      unfold Distribution.add
      simp only [guard, hW, hguard, ne_eq, not_false_eq_true, if_true]
      rfl
    have hflag : (Dist.DidOverflow || decide (Dist.Total + W.Amount < Dist.Total)) =
        decide (2 ^ 64 ≤ n + W.Amount.toNat) := by
      rw [Bool.eq_iff_iff, Bool.or_eq_true, hOverflow, decide_eq_true_iff, decide_eq_true_iff,
        decide_eq_true_iff, hwrap]
      omega
    obtain ⟨Dist', hrun, hWeights, hTotal', hOverflow'⟩ :=
      ih (fun V hV => hpos V (List.mem_cons_of_mem W hV)) ⟨Dist.Weights ++ [W],
        Dist.Total + W.Amount, Dist.DidOverflow || decide (Dist.Total + W.Amount < Dist.Total)⟩
        (n + W.Amount.toNat) hNew hflag hsum
    refine ⟨Dist', ?_, ?_, hTotal', hOverflow'⟩
    · rw [List.foldlM_cons, hadd]
      exact hrun
    · rw [hWeights, List.append_assoc, List.singleton_append]

theorem addAll_spec {ws : List Weight} (hpos : ∀ W ∈ ws, W.Amount ≠ 0)
    (hsum : totalOf ws < 2 ^ 65) :
    ∃ Dist, Distribution.addAll ws = some Dist ∧ Dist.Weights = ws ∧
      Dist.Total.toNat = totalOf ws % 2 ^ 64 ∧
      Dist.DidOverflow = decide (2 ^ 64 ≤ totalOf ws) := by
  have hstart := addAll_from hpos {} 0 rfl rfl (by rw [Nat.zero_add]; exact hsum)
  rw [Nat.zero_add] at hstart
  exact hstart

/-- The weight that is left of an amount. -/
def unitsOf (S n : Nat) : Nat := max 1 ((n + 2 ^ (S - 1)) / 2 ^ S)

theorem shiftRightAndRound_spec (N : BitVec 64) {S : Nat} (hpos : 0 < S) (hlt : S < 64) :
    ∃ R, shiftRightAndRound N S = some R ∧ R.toNat = (N.toNat + 2 ^ (S - 1)) / 2 ^ S := by
  have hguard : (0 : Int) ≤ S ∧ (S : Int) < 64 ∧ ¬(S : Int) = 0 := by omega
  have hpred : ((S : Int) - 1).toNat = S - 1 := by omega
  unfold shiftRightAndRound
  simp only [guard, hguard, if_true, if_false, hpred, Int.toNat_natCast]
  refine ⟨_, rfl, ?_⟩
  obtain ⟨n, rfl⟩ : ∃ n, S = n + 1 := ⟨S - 1, by omega⟩
  rw [Nat.add_sub_cancel]
  have hbit : (1 &&& N >>> n).toNat = N.toNat / 2 ^ n % 2 := by
    have hone : (1 : BitVec 64).toNat = 1 := rfl
    rw [BitVec.toNat_and, hone, Nat.and_comm, Nat.and_one_is_mod, toNat_shr]
  have hshift : (N >>> (n + 1)).toNat = N.toNat / 2 ^ n / 2 := by
    rw [toNat_shr, Nat.pow_succ, Nat.div_div_eq_div_mul]
  have hle : N.toNat / 2 ^ n ≤ N.toNat := Nat.div_le_self _ _
  have hround : (N.toNat + 2 ^ n) / 2 ^ (n + 1) = (N.toNat / 2 ^ n + 1) / 2 := by
    rw [Nat.pow_succ, ← Nat.div_div_eq_div_mul, Nat.add_div_right _ (Nat.two_pow_pos n)]
  rw [toNat_add_of_lt, hshift, hbit, hround]
  · omega
  · rw [hshift, hbit]
    omega

theorem unitsOf_le {S n : Nat} (hpos : 0 < S) (hn : n < 2 ^ (S + 31)) : unitsOf S n ≤ 2 ^ 31 := by
  unfold unitsOf
  have hhalf : 2 ^ (S - 1) < 2 ^ S := Nat.pow_lt_pow_right (by decide) (by omega)
  have hrounded : (n + 2 ^ (S - 1)) / 2 ^ S ≤ 2 ^ 31 := by
    rw [← Nat.lt_succ_iff, Nat.div_lt_iff_lt_mul (Nat.two_pow_pos S)]
    rw [Nat.pow_add] at hn
    rw [Nat.succ_mul, Nat.mul_comm (2 ^ 31)]
    omega
  exact Nat.max_le.mpr ⟨by decide, hrounded⟩

theorem scaleWeights_spec {cs : List Weight} {S : Nat} (hpos : 0 < S) (hlt : S < 64)
    (hvalid : ∀ C ∈ cs, C.TargetNode.isValid = true) (hamount : ∀ C ∈ cs, C.size < 2 ^ (S + 31))
    (Total : BitVec 64) (hlen : Total.toNat + cs.length * 2 ^ 31 < 2 ^ 64) :
    ∃ cs' Total', scaleWeights S cs Total = some (cs', Total') ∧
      cs'.map Weight.TargetNode = cs.map Weight.TargetNode ∧
      cs'.map Weight.type = cs.map Weight.type ∧
      cs'.map Weight.size = cs.map (fun C => unitsOf S C.size) ∧
      Total'.toNat = Total.toNat + total Weight.size cs' := by
  induction cs generalizing Total with
  | nil => exact ⟨[], Total, rfl, rfl, rfl, rfl, rfl⟩
  | cons C cs ih =>
    rw [List.length_cons, Nat.succ_mul] at hlen
    obtain ⟨R, hround, hR⟩ := shiftRightAndRound_spec C.Amount hpos hlt
    have hunits := unitsOf_le hpos (hamount C List.mem_cons_self)
    have hone : (1 : BitVec 64).toNat = 1 := rfl
    obtain ⟨A, hA⟩ : ∃ A, A = if R < 1 then (1 : BitVec 64) else R := ⟨_, rfl⟩
    have hAunits : A.toNat = unitsOf S C.size := by
      rw [hA, unitsOf, Weight.size, ← hR]
      by_cases hsmall : R < 1
      · rw [BitVec.lt_def, hone] at hsmall
        rw [if_pos (BitVec.lt_def.mpr (hone ▸ hsmall)), hone]
        omega
      · rw [BitVec.lt_def, hone] at hsmall
        rw [if_neg (mt BitVec.lt_def.mp (hone ▸ hsmall))]
        omega
    have hmax : UINT32_MAX.toNat = 2 ^ 32 - 1 := rfl
    have hguard : A ≤ UINT32_MAX := by
      rw [BitVec.le_def, hmax, hAunits]
      omega
    have hsum : (Total + A).toNat = Total.toNat + A.toNat := toNat_add_of_lt (by omega)
    obtain ⟨cs', Total', hrun, hT, htype, hsize, hTotal⟩ := ih
      (fun D hD => hvalid D (List.mem_cons_of_mem C hD))
      (fun D hD => hamount D (List.mem_cons_of_mem C hD)) (Total + A) (by omega)
    refine ⟨{ C with Amount := A } :: cs', Total', ?_, ?_, ?_, ?_, ?_⟩
    · unfold scaleWeights
      simp only [guard, hvalid C List.mem_cons_self, if_true, hround, Option.pure_def,
        Option.bind_eq_bind, Option.bind_some, ← hA, hguard, hrun]
    · rw [List.map_cons, List.map_cons, hT]
    · rw [List.map_cons, List.map_cons, htype]
    · rw [List.map_cons, List.map_cons, hsize, Weight.size, hAunits]
    · rw [hTotal, hsum, total_cons, Weight.size, Nat.add_assoc]

theorem sum_unitsOf_lt {cs : List Weight} {S : Nat} (hpos : 0 < S)
    (hamount : ∀ C ∈ cs, C.Amount ≠ 0) (hne : cs ≠ []) :
    (cs.map fun C => unitsOf S C.size).sum * 2 ^ S < total Weight.size cs + cs.length * 2 ^ S := by
  have hone (C : Weight) (hC : C ∈ cs) : unitsOf S C.size * 2 ^ S < C.size + 2 ^ S := by
    have hC0 : C.size ≠ 0 := fun hzero => hamount C hC (BitVec.eq_of_toNat_eq hzero)
    have hhalf : 2 ^ (S - 1) < 2 ^ S := Nat.pow_lt_pow_right (by decide) (by omega)
    have hfloor := Nat.div_mul_le_self (C.size + 2 ^ (S - 1)) (2 ^ S)
    unfold unitsOf
    rcases Nat.le_total 1 ((C.size + 2 ^ (S - 1)) / 2 ^ S) with hle | hle
    · rw [Nat.max_eq_right hle]
      omega
    · rw [Nat.max_eq_left hle]
      omega
  clear hamount
  induction cs with
  | nil => exact absurd rfl hne
  | cons C cs ih =>
    have hC := hone C List.mem_cons_self
    rw [List.map_cons, List.sum_cons, total_cons, List.length_cons, Nat.add_mul, Nat.succ_mul]
    by_cases hnil : cs = []
    · subst hnil
      simpa using hC
    · have hrest := ih hnil fun D hD => hone D (List.mem_cons_of_mem C hD)
      omega

/-! ## Normalization -/

/-- What normalization promises for the edges `ws`. -/
structure Normalized (ws : List Weight) (Dist : Distribution) : Prop where
  nodup : (Dist.Weights.map Weight.TargetNode).Nodup
  mem_iff : ∀ t, t ∈ Dist.Weights.map Weight.TargetNode ↔ t ∈ ws.map Weight.TargetNode
  type : ∀ C ∈ Dist.Weights, ∃ W ∈ ws, W.TargetNode = C.TargetNode ∧ W.type = C.type
  pos : ∀ C ∈ Dist.Weights, C.Amount ≠ 0
  total : Dist.Total.toNat = totalOf Dist.Weights
  total_le : Dist.Total.toNat ≤ 2 ^ 32 - 1

/-- The amounts of the targets, in units of `2 ^ 33`. -/
def unitsTo (ws : List Weight) (t : BlockNode) : Nat := unitsOf 33 (saturated (amountTo ws t))

/-- The edges whose amounts fit into 32 bits after they have been scaled down. -/
def Fits (ws : List Weight) : Prop :=
  totalOf ws < 2 ^ 64 ∨ (targets ws).length = 1 ∨ ((targets ws).map (unitsTo ws)).sum < 2 ^ 32

theorem mem_targets {ws : List Weight} {t : BlockNode} :
    t ∈ targets ws ↔ t ∈ ws.map Weight.TargetNode := List.mem_dedup

theorem Combined.length_eq {ws cs : List Weight} (h : Combined ws cs) :
    cs.length = (targets ws).length := by
  have hperm : (cs.map Weight.TargetNode).Perm (targets ws) :=
    (List.perm_ext_iff_of_nodup h.nodup (List.nodup_dedup _)).mpr fun t =>
      (h.mem_iff t).trans mem_targets.symm
  rw [← hperm.length_eq, List.length_map]

theorem Combined.sum_units {ws cs : List Weight} (h : Combined ws cs) :
    (cs.map fun C => unitsOf 33 C.size).sum = ((targets ws).map (unitsTo ws)).sum := by
  have hkeys := sum_keys_eq (List.nodup_dedup _) h.nodup
    (fun t => (h.mem_iff t).trans mem_targets.symm) (unitsTo ws)
  rw [← targets] at hkeys
  rw [← hkeys]
  congr 1
  apply List.map_congr_left
  intro C hC
  rw [h.amount C hC, unitsTo]

theorem Combined.total_eq {ws cs : List Weight} (h : Combined ws cs) (hsum : totalOf ws < 2 ^ 64) :
    totalOf cs = totalOf ws := by
  have hkeys := sum_keys_eq (List.nodup_dedup _) h.nodup
    (fun t => (h.mem_iff t).trans mem_targets.symm) (amountTo ws)
  have hall : ((targets ws).map (amountTo ws)).sum = totalOf ws :=
    sum_sumAt (List.nodup_dedup _) fun W hW => mem_targets.mpr (List.mem_map_of_mem hW)
  rw [← targets, hall] at hkeys
  rw [← hkeys, totalOf, KeySums.total]
  congr 1
  apply List.map_congr_left
  intro C hC
  have hle : amountTo ws C.TargetNode ≤ totalOf ws := sumAt_le_total ws C.TargetNode
  rw [h.amount C hC, saturated]
  omega

theorem Combined.ne_nil {ws cs : List Weight} (h : Combined ws cs) (hne : ws ≠ []) : cs ≠ [] := by
  rintro rfl
  obtain ⟨W, rest, rfl⟩ := List.exists_cons_of_ne_nil hne
  have hmem := (h.mem_iff W.TargetNode).mpr (List.mem_map_of_mem List.mem_cons_self)
  cases hmem

theorem Combined.valid {ws cs : List Weight} (h : Combined ws cs) (hws : WellFormed ws)
    {C : Weight} (hC : C ∈ cs) : C.TargetNode.isValid = true := by
  obtain ⟨W, hW, htarget, _⟩ := h.type C hC
  rw [← htarget]
  exact hws.valid W hW

theorem Normalized.of_scaled {ws cs : List Weight} (h : Combined ws cs) {Dist : Distribution}
    (hT : Dist.Weights.map Weight.TargetNode = cs.map Weight.TargetNode)
    (htype : Dist.Weights.map Weight.type = cs.map Weight.type)
    (hpos : ∀ C ∈ Dist.Weights, C.Amount ≠ 0) (htotal : Dist.Total.toNat = totalOf Dist.Weights)
    (hle : Dist.Total.toNat ≤ 2 ^ 32 - 1) : Normalized ws Dist := by
  refine ⟨hT ▸ h.nodup, fun t => hT ▸ h.mem_iff t, ?_, hpos, htotal, hle⟩
  intro C hC
  obtain ⟨i, hi, rfl⟩ := List.mem_iff_getElem.mp hC
  have hlen : Dist.Weights.length = cs.length := by
    have hmap := congrArg List.length hT
    rwa [List.length_map, List.length_map] at hmap
  have hi' : i < cs.length := hlen ▸ hi
  obtain ⟨W, hW, htarget, hWtype⟩ := h.type cs[i] (List.getElem_mem _)
  refine ⟨W, hW, ?_, ?_⟩
  · have hget := congrArg (fun l => l[i]?) hT
    simp only [List.getElem?_map, List.getElem?_eq_getElem hi,
      List.getElem?_eq_getElem hi', Option.map_some, Option.some.injEq] at hget
    rw [htarget, hget]
  · have hget := congrArg (fun l => l[i]?) htype
    simp only [List.getElem?_map, List.getElem?_eq_getElem hi,
      List.getElem?_eq_getElem hi', Option.map_some, Option.some.injEq] at hget
    rw [hWtype, hget]

theorem size_ne_zero_iff (W : Weight) : W.size ≠ 0 ↔ W.Amount ≠ 0 :=
  not_congr ⟨fun h => BitVec.eq_of_toNat_eq h, fun h => congrArg BitVec.toNat h⟩

theorem foldl_amounts (cs : List Weight) (Sum : BitVec 64)
    (hsum : Sum.toNat + totalOf cs < 2 ^ 64) :
    (cs.foldl (fun Sum W => Sum + W.Amount) Sum).toNat = Sum.toNat + totalOf cs := by
  induction cs generalizing Sum with
  | nil => rfl
  | cons C cs ih =>
    rw [totalOf, total_cons, ← Nat.add_assoc] at hsum ⊢
    have hadd : (Sum + C.Amount).toNat = Sum.toNat + C.size :=
      toNat_add_of_lt (Nat.lt_of_le_of_lt (Nat.le_add_right _ _) hsum)
    rw [List.foldl_cons, ih _ (by rw [hadd]; exact hsum), hadd]

theorem exists_two {cs : List Weight} (h : 2 ≤ cs.length) : ∃ A B rest, cs = A :: B :: rest := by
  match cs, h with
  | A :: B :: rest, _ => exact ⟨A, B, rest, rfl⟩

theorem scaleDown_shift {ws cs : List Weight} (h : Combined ws cs) (hws : WellFormed ws)
    {Dist : Distribution} (hWeights : Dist.Weights = cs) (htwo : 2 ≤ cs.length)
    (hlen : cs.length ≤ 2 ^ 31) {S : Nat} (hS : Dist.shift = S) (hpos : 0 < S) (hlt : S < 64)
    (hamount : ∀ C ∈ cs, C.size < 2 ^ (S + 31)) :
    ((cs.map fun C => unitsOf S C.size).sum < 2 ^ 32 →
      ∃ Dist', Dist.scaleDown = some Dist' ∧ Normalized ws Dist') ∧
    (¬(cs.map fun C => unitsOf S C.size).sum < 2 ^ 32 → Dist.scaleDown = none) := by
  have hzero : (0 : BitVec 64).toNat = 0 := rfl
  obtain ⟨cs', Total', hrun, hT, htype, hsize, hTotal⟩ := scaleWeights_spec hpos hlt
    (fun C hC => h.valid hws hC) hamount 0 (by rw [hzero]; omega)
  have hmax : UINT32_MAX.toNat = 2 ^ 32 - 1 := rfl
  rw [hzero, Nat.zero_add, KeySums.total, hsize] at hTotal
  have hscale : Dist.scaleDown = (do
      guard (Total' ≤ UINT32_MAX)
      some { Dist with Weights := cs', Total := Total' }) := by
    obtain ⟨A, B, rest, rfl⟩ := exists_two htwo
    have hne : ¬(S : Int) = 0 := by omega
    unfold Distribution.scaleDown
    simp only [hWeights, hS, hne, if_false, hrun]
    rfl
  have htest : Total' ≤ UINT32_MAX ↔ (cs.map fun C => unitsOf S C.size).sum < 2 ^ 32 := by
    rw [BitVec.le_def, hmax, hTotal]
    omega
  refine ⟨?_, ?_⟩
  · intro hfits
    have hguard := htest.mpr hfits
    refine ⟨{ Dist with Weights := cs', Total := Total' }, ?_, ?_⟩
    · rw [hscale]
      simp only [guard, hguard, if_true]
      rfl
    · refine Normalized.of_scaled h hT htype ?_ ?_ (BitVec.le_def.mp hguard)
      · intro C hC
        rw [← size_ne_zero_iff]
        have hmem : C.size ∈ cs.map fun C => unitsOf S C.size := by
          rw [← hsize]
          exact List.mem_map_of_mem hC
        obtain ⟨D, _, hD⟩ := List.mem_map.mp hmem
        rw [← hD]
        unfold unitsOf
        omega
      · rw [hTotal, totalOf, KeySums.total, hsize]
  · intro hfits
    rw [hscale]
    simp only [guard, mt htest.mp hfits, if_false]
    rfl

theorem scaleDown_spec {ws cs : List Weight} (h : Combined ws cs) (hws : WellFormed ws)
    (hne : ws ≠ []) (hlen : ws.length ≤ 2 ^ 31) (Dist : Distribution)
    (hWeights : Dist.Weights = cs) (hTotal : Dist.Total.toNat = totalOf ws % 2 ^ 64)
    (hOverflow : Dist.DidOverflow = decide (2 ^ 64 ≤ totalOf ws)) :
    (Fits ws → ∃ Dist', Dist.scaleDown = some Dist' ∧ Normalized ws Dist') ∧
    (¬Fits ws → Dist.scaleDown = none) := by
  have hcsne := h.ne_nil hne
  have hcslen : cs.length ≤ 2 ^ 31 := by
    have hle : (targets ws).length ≤ (ws.map Weight.TargetNode).length :=
      (List.dedup_sublist _).length_le
    rw [List.length_map] at hle
    rw [h.length_eq]
    omega
  have hlength := h.length_eq
  have hmax : UINT32_MAX.toNat = 2 ^ 32 - 1 := rfl
  by_cases hone : cs.length = 1
  · obtain ⟨W, rfl⟩ := List.length_eq_one_iff.mp hone
    have hfits : Fits ws := Or.inr (Or.inl (hlength ▸ hone))
    refine ⟨fun _ => ?_, fun hnot => absurd hfits hnot⟩
    refine ⟨{ Dist with Weights := [{ W with Amount := 1 }], Total := 1 }, ?_, ?_⟩
    · unfold Distribution.scaleDown
      rw [hWeights]
    · have hone : (1 : BitVec 64).toNat = 1 := rfl
      refine Normalized.of_scaled h rfl rfl ?_ rfl ?_
      · intro C hC
        rw [List.mem_singleton.mp hC]
        exact (by decide : (1 : BitVec 64) ≠ 0)
      · exact hone ▸ (by decide : 1 ≤ 2 ^ 32 - 1)
  have htwo : 2 ≤ cs.length := by
    have hpos := List.length_pos_of_ne_nil hcsne
    omega
  by_cases hbig : 2 ^ 64 ≤ totalOf ws
  · have hshift : Dist.shift = (33 : ℕ) := by
      unfold Distribution.shift
      rw [hOverflow, decide_eq_true hbig, if_pos rfl]
      rfl
    have hscaled := scaleDown_shift h hws hWeights htwo hcslen hshift (by decide) (by decide)
      fun C _ => C.Amount.isLt
    have hiff : Fits ws ↔ (cs.map fun C => unitsOf 33 C.size).sum < 2 ^ 32 := by
      rw [h.sum_units]
      unfold Fits
      omega
    rw [hiff]
    exact hscaled
  · have hsum := Nat.not_le.mp hbig
    have htotal := h.total_eq hsum
    rw [Nat.mod_eq_of_lt hsum] at hTotal
    have hflag : Dist.DidOverflow = false := by
      rw [hOverflow, decide_eq_false hbig]
    have hfits : Fits ws := Or.inl hsum
    refine ⟨fun _ => ?_, fun hnot => absurd hfits hnot⟩
    by_cases hlarge : UINT32_MAX < Dist.Total
    · have hlarge' := BitVec.lt_def.mp hlarge
      have hclz : countl_zero Dist.Total ≤ 31 := by
        by_contra hmany
        have hlt := (le_countl_zero_iff (s := 32) (by decide)).mp (Nat.not_le.mp hmany)
        omega
      have hbound : Dist.Total.toNat < 2 ^ (64 - countl_zero Dist.Total) :=
        BitVec.toNat_lt_two_pow_sub_clz
      obtain ⟨S, hS⟩ : ∃ S, S = 33 - countl_zero Dist.Total := ⟨_, rfl⟩
      have hexp : 64 - countl_zero Dist.Total = S + 31 := by omega
      rw [hexp, hTotal] at hbound
      have hshift : Dist.shift = S := by
        unfold Distribution.shift
        rw [hflag, if_neg Bool.false_ne_true, if_pos hlarge]
        omega
      have hsize (C : Weight) (hC : C ∈ cs) : C.size < 2 ^ (S + 31) := by
        refine Nat.lt_of_le_of_lt ?_ hbound
        rw [← htotal]
        exact List.single_le_sum (fun _ _ => Nat.zero_le _) _ (List.mem_map_of_mem hC)
      refine (scaleDown_shift h hws hWeights htwo hcslen hshift (by omega) (by omega) hsize).1 ?_
      have hunits := sum_unitsOf_lt (S := S) (by omega) (fun C hC => h.pos hws hC) hcsne
      have hlenS : cs.length * 2 ^ S ≤ 2 ^ 31 * 2 ^ S := Nat.mul_le_mul_right _ hcslen
      rw [Nat.pow_add, Nat.mul_comm] at hbound
      change _ < totalOf cs + _ at hunits
      apply Nat.lt_of_mul_lt_mul_right (a := 2 ^ S)
      omega
    · have hshift : Dist.shift = 0 := by
        unfold Distribution.shift
        rw [hflag, if_neg Bool.false_ne_true, if_neg hlarge]
      have hsmall := BitVec.not_lt.mp hlarge
      have hzero : (0 : BitVec 64).toNat = 0 := rfl
      have hfold := foldl_amounts cs 0 (by rw [hzero]; omega)
      rw [hzero, Nat.zero_add, htotal, ← hTotal] at hfold
      have hguard : Dist.Total = cs.foldl (fun Sum W => Sum + W.Amount) 0 :=
        BitVec.eq_of_toNat_eq hfold.symm
      refine ⟨Dist, ?_, ?_⟩
      · obtain ⟨A, B, rest, rfl⟩ := exists_two htwo
        unfold Distribution.scaleDown
        simp only [hWeights, hshift, if_true, guard, ← hguard]
        rfl
      · refine Normalized.of_scaled h (hWeights ▸ rfl) (hWeights ▸ rfl) ?_ ?_ hsmall
        · intro C hC
          exact h.pos hws (hWeights ▸ hC)
        · rw [hTotal, hWeights, htotal]

theorem normalize_spec (c : Containers) {ws : List Weight} (hws : WellFormed ws) (hne : ws ≠ [])
    (hlen : ws.length ≤ 2 ^ 31) {Dist : Distribution} (hWeights : Dist.Weights = ws)
    (hTotal : Dist.Total.toNat = totalOf ws % 2 ^ 64)
    (hOverflow : Dist.DidOverflow = decide (2 ^ 64 ≤ totalOf ws)) :
    (Fits ws → ∃ Dist', Dist.normalize c = some Dist' ∧ Normalized ws Dist') ∧
    (¬Fits ws → Dist.normalize c = none) := by
  unfold Distribution.normalize
  rw [hWeights, if_neg hne]
  by_cases hmany : ws.length > 1
  · obtain ⟨cs, hrun, hcombined⟩ := combineWeights_spec c hws hne
    rw [if_pos hmany, hrun]
    exact scaleDown_spec hcombined hws hne hlen { Dist with Weights := cs } rfl hTotal hOverflow
  · rw [if_neg hmany]
    refine scaleDown_spec (Combined.of_nodup ?_) hws hne hlen Dist hWeights hTotal hOverflow
    have hone : ws.length = 1 := by
      have hpos := List.length_pos_of_ne_nil hne
      omega
    obtain ⟨W, rfl⟩ := List.length_eq_one_iff.mp hone
    exact List.nodup_singleton _

theorem toNat_sub_mass {RemMass Mass : BlockMass} (h : Mass.toNat ≤ RemMass.toNat) :
    (BlockMass.sub RemMass Mass).toNat = RemMass.toNat - Mass.toNat := by
  have hdiff : (RemMass - Mass).toNat = RemMass.toNat - Mass.toNat := toNat_sub_of_le h
  have hle : ¬RemMass < RemMass - Mass := by
    rw [BitVec.lt_def, hdiff]
    omega
  unfold BlockMass.sub
  rw [if_neg hle, hdiff]

theorem takeMass_spec (D : DitheringDistributer) {Weight : BitVec 32} (hne : Weight.toNat ≠ 0)
    (hle : Weight.toNat ≤ D.RemWeight.toNat) :
    ∃ Taken D', D.takeMass Weight = some (Taken, D') ∧ Taken.toNat ≤ D.RemMass.toNat ∧
      (Weight = D.RemWeight → Taken = D.RemMass) ∧
      D'.RemWeight.toNat = D.RemWeight.toNat - Weight.toNat ∧
      D'.RemMass.toNat = D.RemMass.toNat - Taken.toNat := by
  have hguard : Weight ≠ 0 := fun hzero => hne (congrArg BitVec.toNat hzero)
  have hguard' : Weight ≤ D.RemWeight := BitVec.le_def.mpr hle
  obtain ⟨P, hP, hPle, hPone⟩ := BranchProbability.toNat_ofFraction (by omega) hle
  have hshare := BranchProbability.scale_le hPle D.RemMass
  refine ⟨P.scale D.RemMass, ⟨D.RemWeight - Weight, BlockMass.sub D.RemMass (P.scale D.RemMass)⟩,
    ?_, hshare, ?_, toNat_sub_of_le hle, toNat_sub_mass hshare⟩
  · unfold DitheringDistributer.takeMass
    simp only [guard, hguard, hguard', ne_eq, not_false_eq_true, if_true, hP]
    rfl
  · intro hlast
    obtain ⟨N⟩ := P
    obtain rfl : N = BranchProbability.D := hPone hlast
    exact BranchProbability.scale_one D.RemMass

/-- The masses that the weights take, given to their targets. -/
def assignAll (OuterLoop : Option Nat) (taken : List (Weight × BlockMass))
    (bfi : BlockFrequencyInfoImplBase) : Option BlockFrequencyInfoImplBase :=
  taken.foldlM (fun bfi p => bfi.assign OuterLoop p.1 p.2) bfi

theorem distributeWeights_spec (OuterLoop : Option Nat) {cs : List Weight}
    (hpos : ∀ C ∈ cs, C.Amount ≠ 0) (hne : cs ≠ []) (D : DitheringDistributer)
    (htotal : totalOf cs = D.RemWeight.toNat) :
    ∃ shares : List BlockMass, shares.length = cs.length ∧
      (shares.map BitVec.toNat).sum = D.RemMass.toNat ∧
      ∀ bfi, distributeWeights OuterLoop cs D bfi = assignAll OuterLoop (cs.zip shares) bfi := by
  induction cs generalizing D with
  | nil => exact absurd rfl hne
  | cons C cs ih =>
    rw [totalOf, total_cons] at htotal
    have hC : C.size ≠ 0 := (size_ne_zero_iff C).mpr (hpos C List.mem_cons_self)
    have hnarrow : (C.Amount.setWidth 32).toNat = C.size := by
      rw [BitVec.toNat_setWidth]
      exact Nat.mod_eq_of_lt (by unfold Weight.size at htotal; omega)
    obtain ⟨Taken, D', hrun, hTaken, hlast, hRemWeight, hRemMass⟩ := takeMass_spec D
      (by rw [hnarrow]; exact hC) (by rw [hnarrow]; omega)
    rw [hnarrow] at hRemWeight
    by_cases hnil : cs = []
    · subst hnil
      rw [total_nil, Nat.add_zero] at htotal
      have hall : Taken = D.RemMass := by
        apply hlast
        apply BitVec.eq_of_toNat_eq
        rw [hnarrow, htotal]
      refine ⟨[Taken], rfl, ?_, ?_⟩
      · rw [List.map_singleton, List.sum_singleton, hall]
      · intro bfi
        unfold distributeWeights
        rw [hrun]
        rfl
    · obtain ⟨shares, hlen, hsum, hrest⟩ := ih
        (fun W hW => hpos W (List.mem_cons_of_mem C hW)) hnil D'
        (by rw [hRemWeight, ← htotal, Nat.add_sub_cancel_left])
      refine ⟨Taken :: shares, ?_, ?_, ?_⟩
      · rw [List.length_cons, List.length_cons, hlen]
      · rw [List.map_cons, List.sum_cons, hsum, hRemMass]
        omega
      · intro bfi
        unfold distributeWeights assignAll
        rw [hrun, List.zip_cons_cons, List.foldlM_cons]
        simp only [Option.bind_eq_bind, Option.bind_some, hrest, assignAll]

/-! ## Main result -/

/--
The normalized distribution is as promised, and whatever the block and its
mass, the masses given to the targets add up to that mass.
-/
def ConservesMass (c : Containers) (ws : List Weight) (Dist : Distribution) : Prop :=
  ∃ Dist', Dist.normalize c = some Dist' ∧ Normalized ws Dist' ∧
    ∀ (bfi : BlockFrequencyInfoImplBase) (Source : BlockNode) (OuterLoop : Option Nat)
      (Mass : BlockMass), bfi.getMass Source = some Mass →
      ∃ shares : List BlockMass, shares.length = Dist'.Weights.length ∧
        (shares.map BitVec.toNat).sum = Mass.toNat ∧
        distributeMass c bfi Source OuterLoop Dist =
          (assignAll OuterLoop (Dist'.Weights.zip shares) bfi).map fun bfi => (bfi, Dist')

theorem Normalized.conserves {c : Containers} {ws : List Weight} {Dist Dist' : Distribution}
    (h : Normalized ws Dist') (hne : ws ≠ []) (hrun : Dist.normalize c = some Dist') :
    ConservesMass c ws Dist := by
  refine ⟨Dist', hrun, h, ?_⟩
  intro bfi Source OuterLoop Mass hMass
  have hWeights : Dist'.Weights ≠ [] := by
    intro hnil
    obtain ⟨W, rest, rfl⟩ := List.exists_cons_of_ne_nil hne
    have hmem := (h.mem_iff W.TargetNode).mpr (List.mem_map_of_mem List.mem_cons_self)
    rw [hnil] at hmem
    cases hmem
  have hle := h.total_le
  have hnarrow : totalOf Dist'.Weights = (Dist'.Total.setWidth 32).toNat := by
    rw [BitVec.toNat_setWidth, Nat.mod_eq_of_lt (by omega), h.total]
  obtain ⟨shares, hlen, hsum, hassign⟩ := distributeWeights_spec OuterLoop h.pos hWeights
    ⟨Dist'.Total.setWidth 32, Mass⟩ hnarrow
  refine ⟨shares, hlen, hsum, ?_⟩
  unfold distributeMass
  rw [hMass, hrun]
  simp only [Option.bind_eq_bind, Option.bind_some, hassign]
  cases assignAll OuterLoop (Dist'.Weights.zip shares) bfi <;> rfl

/-- A stable sort, and a table that is visited in the order of its insertions. -/
def Containers.stable : Containers where
  sort ws := ws.mergeSort fun L R => decide (L.TargetNode.Index ≤ R.TargetNode.Index)
  sort_perm ws := List.mergeSort_perm ws _
  sort_sorted ws := by
    have hsorted : (ws.mergeSort fun L R => decide (L.TargetNode.Index ≤ R.TargetNode.Index)).Pairwise
        fun L R => decide (L.TargetNode.Index ≤ R.TargetNode.Index) = true := by
      refine List.pairwise_mergeSort ?_ ?_ ws
      · intro A B C
        simp only [decide_eq_true_iff]
        exact BitVec.le_trans
      · intro A B
        simp only [Bool.or_eq_true, decide_eq_true_iff]
        exact BitVec.le_total _ _
    simpa using hsorted
  visit ws := ws
  visit_perm ws := List.Perm.refl ws

/-- The edges for which normalization and distribution keep the whole mass. -/
def Conserving (ws : List Weight) : Prop := ws ≠ [] ∧ Fits ws

theorem not_conservesMass_nil (c : Containers) {Dist : Distribution} (hWeights : Dist.Weights = []) :
    ¬ConservesMass c [] Dist := by
  rintro ⟨Dist', hrun, _, hall⟩
  unfold Distribution.normalize at hrun
  rw [if_pos hWeights] at hrun
  obtain rfl := Option.some.inj hrun
  obtain ⟨shares, hlen, hsum, _⟩ := hall ⟨[⟨⟨0⟩, none, 1⟩], []⟩ ⟨0⟩ none 1 rfl
  rw [hWeights, List.length_nil, List.length_eq_zero_iff] at hlen
  subst hlen
  exact absurd hsum (by decide)

/-- Four edges whose sum is just below `2 ^ 65`. -/
def largeEdges : List Weight :=
  [⟨.Local, ⟨1⟩, BitVec.ofNat 64 (2 ^ 63 - 1)⟩, ⟨.Local, ⟨2⟩, BitVec.ofNat 64 (2 ^ 63 - 1)⟩,
    ⟨.Local, ⟨3⟩, BitVec.ofNat 64 (2 ^ 63 - 1)⟩, ⟨.Local, ⟨4⟩, BitVec.ofNat 64 (2 ^ 63 - 1)⟩]

end SmlnjLlvm.BlockFrequency
