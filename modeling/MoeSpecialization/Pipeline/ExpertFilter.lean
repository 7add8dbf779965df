import MoeSpecialization.Pipeline.RecordedPass

/-!
# The bound of the expert filter

Reference: `convert_record_to_output_format` and `analyze_expert_selection`, against
`biased_grouped_topk_impl` in `sglang/srt/layers/moe/topk.py`.

A router emits the ids `0, …, E - 1` of its routed experts, and the ids of fused shared experts right
behind them; empty slots hold `-1`. The postprocessor keeps the ids below the constant `256`. It keeps
the routed experts and nothing else if and only if no id that it reads lies between the two bounds.
-/

namespace MoeSpecialization.Pipeline

open Py Postprocess Metrics RecordedPass

variable {numExperts : ℕ}

/-- The ids of the routed experts. -/
def isRouted (numExperts : ℕ) (e : ℤ) : Bool := 0 ≤ e && e < numExperts

theorem isRouted_iff {e : ℤ} : isRouted numExperts e = true ↔ 0 ≤ e ∧ e < numExperts := by
  rw [isRouted, Bool.and_eq_true, decide_eq_true_eq, decide_eq_true_eq]

/-- The line of a pass has the routed experts of the first row of every layer, and beside them the
strongest logit of the experts that the row does not select. -/
def LineMatches (p : RecordedPass numExperts) : Prop :=
  ∃ line, convertRecordToOutputFormat p.record = .ok line ∧ ∀ l,
    let layerData := (line.layers.get? (toString l)).getD {}
    layerData.expertIds = (p.firstIds l).filter (isRouted numExperts) ∧
    (layerData.expertIds ≠ [] →
      layerData.nextExpertLogit = (excludedLogits (p.firstLogits l) (p.firstIds l)).max?)

/-- The counts are those of the routed experts, over all slots of the passes that are not skipped. -/
def CountsMatch (passes : List (RecordedPass numExperts)) (eosTokenIds : List ℤ) : Prop :=
  ∃ stats totals, (analyzeExpertSelection (passes.map record) eosTokenIds).run ∅ = .ok stats totals ∧
    ∀ l e, totals.layerExpertCounts.at2 l e =
      if isRouted numExperts e then ((analysed passes eosTokenIds).map fun p => (p.slots l).count e).sum
      else 0

/-- The id is not between the bound of the filter and the number of experts. -/
def OnOneSide (numExperts : ℕ) (e : ℤ) : Prop := 0 ≤ e → (e < 256 ↔ e < numExperts)

theorem onOneSide_iff {e : ℤ} :
    OnOneSide numExperts e ↔ isValidExpert e = isRouted numExperts e := by
  rw [Bool.eq_iff_iff, isValidExpert_iff, isRouted_iff, OnOneSide]
  constructor
  · rintro h
    exact and_congr_right h
  · intro h hpos
    simpa [hpos] using h

/-- Two filters of a list agree if they agree on its elements. -/
theorem filter_eq_filter_iff {α : Type} {p q : α → Bool} {xs : List α} :
    xs.filter p = xs.filter q ↔ ∀ x ∈ xs, p x = q x := by
  constructor
  · intro h x hx
    rw [Bool.eq_iff_iff]
    have hmem : x ∈ xs.filter p ↔ x ∈ xs.filter q := by rw [h]
    simpa [hx] using hmem
  · exact List.filter_congr

/-- Ids that do not pass the filter exclude no logit. -/
theorem excludedLogits_filter (z : List ℚ) (ids : List ℤ) (p : ℤ → Bool)
    (hp : ∀ j < z.length, p (j : ℤ) = true) :
    excludedLogits z (ids.filter p) = excludedLogits z ids := by
  rw [excludedLogits, excludedLogits]
  refine congrArg (List.map _) (List.filter_congr fun j hj => ?_)
  simp [List.mem_filter, hp j (List.mem_range.mp hj)]

theorem lineMatches_iff (p : RecordedPass numExperts) :
    LineMatches p ↔ ∀ l, ∀ e ∈ p.firstIds l, OnOneSide numExperts e := by
  obtain ⟨line, hline⟩ := p.exists_convertRecord
  have hids : ∀ l, ((line.layers.get? (toString l)).getD {}).expertIds =
      (p.firstIds l).filter isValidExpert := fun l =>
    (convertRecord_layer hline l).1.trans (p.map_fst_kept l)
  simp only [onOneSide_iff, ← filter_eq_filter_iff]
  constructor
  · rintro ⟨line', hline', h⟩ l
    rw [hline] at hline'
    cases hline'
    rw [← hids]
    exact (h l).1
  · intro h
    refine ⟨line, hline, fun l => ⟨(hids l).trans (h l), fun hne => ?_⟩⟩
    rw [hids] at hne
    have hlt : ∀ e ∈ p.firstIds l, isValidExpert e = true → e < numExperts := by
      intro e he hv
      rw [filter_eq_filter_iff.mp (h l) e he] at hv
      exact (isRouted_iff.mp hv).2
    obtain ⟨d, hget, -, -, hnext⟩ := p.convertRecord_valid hline hlt hne
    have hfirst : p.firstIds l ≠ [] := fun hnil => hne (by rw [hnil]; rfl)
    rw [hget, Option.getD_some, hnext, h l, excludedLogits_filter]
    intro j hj
    rw [p.length_firstLogits hfirst] at hj
    exact isRouted_iff.mpr (by omega)

/-- An id that a filter drops is not counted. -/
theorem sum_count_filter_eq_zero {passes : List (RecordedPass numExperts)} {l : ℕ} {q : ℤ → Bool} {e : ℤ}
    (he : q e = false) : (passes.map fun p => ((p.slots l).filter q).count e).sum = 0 := by
  apply List.sum_eq_zero
  intro x hx
  obtain ⟨p, -, rfl⟩ := List.mem_map.mp hx
  refine List.count_eq_zero.mpr fun hmem => ?_
  rw [(List.mem_filter.mp hmem).2] at he
  cases he

theorem countsMatch_iff (passes : List (RecordedPass numExperts)) (eosTokenIds : List ℤ) :
    CountsMatch passes eosTokenIds ↔
      ∀ p ∈ analysed passes eosTokenIds, ∀ l, ∀ e ∈ p.slots l, OnOneSide numExperts e := by
  obtain ⟨stats, totals, hrun, hcounts⟩ := exists_analyzeExpertSelection passes eosTokenIds
  constructor
  · rintro ⟨stats', totals', hrun', h⟩ p hp l e he
    rw [hrun] at hrun'
    cases hrun'
    have hsum := (hcounts l e).symm.trans (h l e)
    rw [onOneSide_iff]
    -- one slot makes a sum positive
    cases hv : isValidExpert e with
    | true =>
      by_contra hr
      rw [if_neg (by simpa using hr), List.sum_eq_zero_iff] at hsum
      have hzero := hsum _ (List.mem_map_of_mem hp)
      rw [List.count_filter hv] at hzero
      exact List.count_eq_zero.mp hzero he
    | false =>
      by_contra hr
      have hr : isRouted numExperts e = true := by simpa using hr
      rw [sum_count_filter_eq_zero hv, if_pos hr, eq_comm, List.sum_eq_zero_iff] at hsum
      exact List.count_eq_zero.mp (hsum _ (List.mem_map_of_mem hp)) he
  · intro h
    refine ⟨stats, totals, hrun, fun l e => ?_⟩
    rw [hcounts]
    have hfilter : ∀ p ∈ analysed passes eosTokenIds,
        (p.slots l).filter isValidExpert = (p.slots l).filter (isRouted numExperts) := fun p hp =>
      filter_eq_filter_iff.mpr fun x hx => onOneSide_iff.mp (h p hp l x hx)
    rw [List.map_congr_left fun p hp => congrArg (List.count e) (hfilter p hp)]
    by_cases hr : isRouted numExperts e = true
    · rw [if_pos hr]
      refine congrArg List.sum (List.map_congr_left fun p _ => ?_)
      rw [List.count_filter hr]
    · rw [if_neg hr]
      exact sum_count_filter_eq_zero (Bool.eq_false_iff.mpr hr)

/-- **The bound of the expert filter.** The conversion and the analysis of recorded passes keep exactly
the routed experts of the model if and only if no id of a first row, and no id of a pass that is
analysed, lies between `256` and the number of experts. -/
theorem filter_matches_iff (passes : List (RecordedPass numExperts)) (eosTokenIds : List ℤ) :
    ((∀ p ∈ passes, LineMatches p) ∧ CountsMatch passes eosTokenIds) ↔
      (∀ p ∈ passes, ∀ l, ∀ e ∈ p.firstIds l, OnOneSide numExperts e) ∧
        ∀ p ∈ analysed passes eosTokenIds, ∀ l, ∀ e ∈ p.slots l, OnOneSide numExperts e := by
  rw [countsMatch_iff]
  exact and_congr_left fun _ => forall₂_congr fun p _ => lineMatches_iff p

/-- A token of a model with eight routed experts and a fused shared expert. -/
def sharedExpertPass : RecordedPass 8 where
  topkIds := [[[3, 8]]]
  topkWeights := [[[1, 1]]]
  routerLogits := [[[0, 0, 0, 5, 0, 0, 0, 0]]]
  weights_shape := rfl
  logits_shape := rfl

/-- The shared expert is kept and counted. -/
theorem filter_keeps_shared_expert :
    ¬((∀ p ∈ [sharedExpertPass], LineMatches p) ∧ CountsMatch [sharedExpertPass] []) := by
  rintro ⟨hlines, -⟩
  have h := (lineMatches_iff sharedExpertPass).mp (hlines _ (by simp)) 0 8 (by decide) (by decide)
  exact absurd (h.mp (by decide)) (by decide)

end MoeSpecialization.Pipeline
