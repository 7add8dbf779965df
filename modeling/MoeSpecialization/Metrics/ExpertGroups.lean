import MoeSpecialization.Common.Greedy
import MoeSpecialization.Metrics.Sequences
import Mathlib.Algebra.BigOperators.Field
import Mathlib.Algebra.Order.Field.Basic
import Mathlib.Tactic.Ring

/-!
# Expert groups

Reference: `compute_layer_expert_weights`, `select_top_experts_by_threshold` and
`select_top_experts_by_topk` in `metric/utils/compute_expert_metrics.py`.

The weights of the experts of a layer are accumulated over all lines, together with their total, and the
heaviest experts are taken until their share reaches a threshold. The group is the smallest one that
reaches it (`expert_group_minimal`).
-/

namespace MoeSpecialization.Metrics

open Py Postprocess

namespace ComputeExpertMetrics

/-! ## Weights -/

/-- `layer_expert_weights` and `layer_total_weight`. -/
structure LayerWeights where
  layerExpertWeights : PyDict ℤ (PyDict ℤ ℚ) := ∅
  layerTotalWeight : PyDict ℤ ℚ := ∅

/-- One weight, added for the expert and to the total of the layer. -/
def LayerWeights.add (layerIdx : ℤ) (s : LayerWeights) (expertId : ℤ) (weight : ℚ) : LayerWeights where
  layerExpertWeights := s.layerExpertWeights.addAt layerIdx expertId weight
  layerTotalWeight := s.layerTotalWeight.modify layerIdx 0 (· + weight)

/-- The body of the loop over the slots: a weight that is no number is passed over. -/
def LayerWeights.addSlot (layerIdx : ℤ) (s : LayerWeights) : ℤ × Option ℚ → LayerWeights
  | (_, none) => s
  | (expertId, some weight) => s.add layerIdx expertId weight

/-- The body of the loop over the layers of a line: the slots that have a weight, or a count of one for
every expert if the line has no weights. -/
def LayerWeights.addLayer (s : LayerWeights) : String × LayerData → LayerWeights
  | (layerKey, layerData) =>
    match pyInt layerKey with
    | none => s
    | some layerIdx =>
      if layerData.expertIds = [] then s
      else if layerData.weights ≠ [] then
        (layerData.expertIds.zip layerData.weights).foldl (addSlot layerIdx) s
      else layerData.expertIds.foldl (fun s expertId => s.add layerIdx expertId 1) s

/-- `compute_layer_expert_weights`. -/
def computeLayerExpertWeights (records : List OutputRecord) : LayerWeights :=
  records.foldl (fun s record => record.layers.entries.foldl LayerWeights.addLayer s) {}

/-! ## Selection -/

/-- The selected experts, the shares of all experts and the share of the selected ones. -/
structure Selection where
  selected : List ℤ := []
  expertShares : PyDict ℤ ℚ := ∅
  cumulative : ℚ := 0
deriving DecidableEq

/-- `Counter.most_common()`: descending by weight, equal weights in insertion order. -/
def mostCommon (expertWeights : PyDict ℤ ℚ) : List (ℤ × ℚ) :=
  expertWeights.entries.insertionSort fun a b => a.2 ≥ b.2

/-- `{expert_id: weight / total_weight for expert_id, weight in sorted_items}`. -/
def expertSharesOf (sortedItems : List (ℤ × ℚ)) (totalWeight : ℚ) : PyDict ℤ ℚ :=
  sortedItems.foldl (fun d p => d.set p.1 (p.2 / totalWeight)) ∅

/-- The loop of `select_top_experts_by_threshold`. Every expert has a share. -/
def thresholdLoop (expertShares : PyDict ℤ ℚ) (threshold : ℚ) :
    List (ℤ × ℚ) → List ℤ × ℚ → List ℤ × ℚ
  | [], acc => acc
  | (expertId, _) :: items, (selected, cumulative) =>
    let cumulative := cumulative + expertShares.getD expertId 0
    let selected := selected ++ [expertId]
    if cumulative ≥ threshold then (selected, cumulative)
    else thresholdLoop expertShares threshold items (selected, cumulative)

/-- `select_top_experts_by_threshold`. -/
def selectTopExpertsByThreshold (expertWeights : PyDict ℤ ℚ) (totalWeight threshold : ℚ) : Selection :=
  if totalWeight ≤ 0 then {}
  else
    let sortedItems := mostCommon expertWeights
    let expertShares := expertSharesOf sortedItems totalWeight
    let (selected, cumulative) := thresholdLoop expertShares threshold sortedItems ([], 0)
    { selected, expertShares, cumulative }

/-- The loop of `select_top_experts_by_topk`, from position `i` on. -/
def topkLoop (expertShares : PyDict ℤ ℚ) (topk : ℤ) :
    ℕ → List (ℤ × ℚ) → List ℤ × ℚ → List ℤ × ℚ
  | _, [], acc => acc
  | i, (expertId, _) :: items, (selected, cumulative) =>
    if i ≥ topk then (selected, cumulative)
    else
      topkLoop expertShares topk (i + 1) items
        (selected ++ [expertId], cumulative + expertShares.getD expertId 0)

/-- `select_top_experts_by_topk`. -/
def selectTopExpertsByTopk (expertWeights : PyDict ℤ ℚ) (totalWeight : ℚ) (topk : ℤ) : Selection :=
  if totalWeight ≤ 0 then {}
  else
    let sortedItems := mostCommon expertWeights
    let expertShares := expertSharesOf sortedItems totalWeight
    let (selected, cumulative) := topkLoop expertShares topk 0 sortedItems ([], 0)
    { selected, expertShares, cumulative }

/-! ## The total is the sum over the experts -/

theorem sum_values_modify (d : PyDict ℤ ℚ) (k : ℤ) (v : ℚ) :
    (d.modify k 0 (· + v)).values.sum = d.values.sum + v := by
  show ((PyDict.setEntries d.entries k ((d.entries.lookup k).getD 0 + v)).map Prod.snd).sum =
    (d.entries.map Prod.snd).sum + v
  induction d.entries with
  | nil => simp [PyDict.setEntries]
  | cons p es ih =>
    obtain ⟨k', v'⟩ := p
    by_cases hk : k' = k
    · subst hk
      simp only [PyDict.setEntries, if_true, List.lookup_cons_self, Option.getD_some, List.map_cons,
        List.sum_cons]
      ring
    · have hlookup : ((k', v') :: es).lookup k = es.lookup k := by
        have hb : (k == k') = false := beq_false_of_ne (Ne.symm hk)
        rw [List.lookup_cons, hb]
      simp only [PyDict.setEntries, if_neg hk, hlookup, List.map_cons, List.sum_cons, ih]
      ring

theorem nonneg_values_modify {d : PyDict ℤ ℚ} (h : ∀ w ∈ d.values, 0 ≤ w) (k : ℤ) {v : ℚ} (hv : 0 ≤ v) :
    ∀ w ∈ (d.modify k 0 (· + v)).values, 0 ≤ w := by
  intro w hw
  obtain ⟨j, hj⟩ := PyDict.mem_values_iff.mp hw
  rw [PyDict.modify, PyDict.get?_set] at hj
  split at hj
  · cases hj
    have hold : 0 ≤ d.getD k 0 := by
      rw [PyDict.getD]
      cases hget : d.get? k with
      | none => exact le_rfl
      | some x => exact h x (PyDict.mem_values_iff.mpr ⟨k, hget⟩)
    exact add_nonneg hold hv
  · exact h w (PyDict.mem_values_iff.mpr ⟨j, hj⟩)

/-- The invariant of the accumulation: the totals are the sums over the experts, and no weight is
negative. -/
structure LayerWeights.Balanced (s : LayerWeights) : Prop where
  total : ∀ l, s.layerTotalWeight.getD l 0 = (s.layerExpertWeights.getD l ∅).values.sum
  nonneg : ∀ l, ∀ w ∈ (s.layerExpertWeights.getD l ∅).values, 0 ≤ w

theorem LayerWeights.Balanced.add {s : LayerWeights} (h : s.Balanced) (layerIdx expertId : ℤ)
    {weight : ℚ} (hweight : 0 ≤ weight) : (s.add layerIdx expertId weight).Balanced where
  total := by
    intro l
    rw [LayerWeights.add, PyDict.addAt, PyDict.getD_modify, PyDict.getD_modify]
    by_cases hl : l = layerIdx
    · rw [if_pos hl, if_pos hl, sum_values_modify, h.total]
    · rw [if_neg hl, if_neg hl, h.total]
  nonneg := by
    intro l
    rw [LayerWeights.add, PyDict.addAt, PyDict.getD_modify]
    by_cases hl : l = layerIdx
    · rw [if_pos hl]
      exact nonneg_values_modify (h.nonneg _) expertId hweight
    · rw [if_neg hl]
      exact h.nonneg l

/-- A loop whose steps keep a property keeps it. -/
theorem foldl_keeps {σ α : Type} {P : σ → Prop} {f : σ → α → σ} {xs : List α} {s : σ}
    (hstep : ∀ s, ∀ x ∈ xs, P s → P (f s x)) (h : P s) : P (xs.foldl f s) := by
  induction xs generalizing s with
  | nil => exact h
  | cons x xs ih =>
    exact ih (fun s y hy => hstep s y (by simp [hy])) (hstep s x (by simp) h)

theorem LayerWeights.Balanced.addLayer {s : LayerWeights} (h : s.Balanced) {p : String × LayerData}
    (hp : ∀ w, some w ∈ p.2.weights → 0 ≤ w) : (s.addLayer p).Balanced := by
  obtain ⟨layerKey, layerData⟩ := p
  rw [LayerWeights.addLayer]
  cases pyInt layerKey with
  | none => exact h
  | some layerIdx =>
    dsimp only
    split_ifs with hids hweights
    · exact h
    · refine foldl_keeps (fun s slot hslot hs => ?_) h
      obtain ⟨expertId, weight⟩ := slot
      cases weight with
      | none => exact hs
      | some w => exact hs.add layerIdx expertId (hp w (List.of_mem_zip hslot).2)
    · exact foldl_keeps (fun s expertId _ hs => hs.add layerIdx expertId zero_le_one) h

theorem balanced_computeLayerExpertWeights {records : List OutputRecord}
    (h : ∀ record ∈ records, ∀ p ∈ record.layers.entries, ∀ w, some w ∈ p.2.weights → 0 ≤ w) :
    (computeLayerExpertWeights records).Balanced := by
  refine foldl_keeps (P := LayerWeights.Balanced) (fun s record hrecord hs => ?_) ⟨fun l => rfl, ?_⟩
  · exact foldl_keeps (fun s p hp hs => hs.addLayer (h record hrecord p hp)) hs
  · intro l w hw
    cases hw

/-! ## The selected experts are a prefix of the sorted ones -/

section Selection

variable {weights : PyDict ℤ ℚ} {total : ℚ}

/-- The experts in descending order of their weights. -/
def sortedExperts (weights : PyDict ℤ ℚ) : List ℤ := (mostCommon weights).map Prod.fst

theorem mostCommon_perm (weights : PyDict ℤ ℚ) : (mostCommon weights).Perm weights.entries :=
  List.perm_insertionSort _ _

theorem nodup_sortedExperts (weights : PyDict ℤ ℚ) : (sortedExperts weights).Nodup :=
  ((mostCommon_perm weights).map Prod.fst).nodup_iff.mpr weights.nodup

/-- The shares are stored in the order of the sorted experts. -/
theorem entries_expertSharesOf (weights : PyDict ℤ ℚ) (total : ℚ) :
    (expertSharesOf (mostCommon weights) total).entries =
      (mostCommon weights).map fun p => (p.1, p.2 / total) := by
  have hnodup : ((mostCommon weights).map Prod.fst).Nodup := nodup_sortedExperts weights
  rw [expertSharesOf]
  generalize mostCommon weights = items at *
  suffices key : ∀ d : PyDict ℤ ℚ, (∀ p ∈ items, p.1 ∉ d.keys) →
      (items.foldl (fun d p => d.set p.1 (p.2 / total)) d).entries =
        d.entries ++ items.map fun p => (p.1, p.2 / total) from
    key ∅ fun p _ => List.not_mem_nil
  induction items with
  | nil => simp
  | cons p items ih =>
    intro d hd
    obtain ⟨hfresh, hnodup⟩ := List.nodup_cons.mp hnodup
    rw [List.foldl_cons, ih hnodup, PyDict.entries_set_of_notMem _ (hd p (by simp))]
    · simp
    · intro q hq hmem
      rcases PyDict.mem_keys_set.mp hmem with hmem | heq
      · exact hd q (by simp [hq]) hmem
      · exact hfresh (heq ▸ List.mem_map_of_mem hq)

/-- The share of an expert. -/
theorem getD_expertSharesOf (weights : PyDict ℤ ℚ) (total : ℚ) (e : ℤ) :
    (expertSharesOf (mostCommon weights) total).getD e 0 = weights.getD e 0 / total := by
  have hget : (expertSharesOf (mostCommon weights) total).get? e =
      (weights.get? e).map (· / total) := by
    ext x
    rw [PyDict.get?_eq_some_iff, entries_expertSharesOf, List.mem_map, Option.map_eq_some_iff]
    simp only [PyDict.get?_eq_some_iff, (mostCommon_perm weights).mem_iff, Prod.mk.injEq]
    constructor
    · rintro ⟨p, hp, rfl, rfl⟩
      exact ⟨p.2, hp, rfl⟩
    · rintro ⟨v, hv, rfl⟩
      exact ⟨(e, v), hv, rfl, rfl⟩
  rw [PyDict.getD, PyDict.getD, hget]
  cases weights.get? e with
  | none => simp
  | some v => rfl

theorem thresholdLoop_eq (shares : PyDict ℤ ℚ) (threshold : ℚ) (items : List (ℤ × ℚ))
    (selected : List ℤ) (cumulative : ℚ) :
    let reached := Greedy.reach (shares.getD · 0) threshold cumulative (items.map Prod.fst)
    thresholdLoop shares threshold items (selected, cumulative) =
      (selected ++ reached, cumulative + (reached.map (shares.getD · 0)).sum) := by
  induction items generalizing selected cumulative with
  | nil => simp [thresholdLoop, Greedy.reach]
  | cons p items ih =>
    obtain ⟨e, v⟩ := p
    simp only [thresholdLoop, List.map_cons, Greedy.reach, ge_iff_le]
    split
    · simp
    · simp only [ih, List.append_assoc, List.singleton_append, List.map_cons, List.sum_cons, add_assoc]

theorem topkLoop_eq (shares : PyDict ℤ ℚ) (topk i : ℕ) (items : List (ℤ × ℚ)) (selected : List ℤ)
    (cumulative : ℚ) :
    let first := (items.map Prod.fst).take (topk - i)
    topkLoop shares topk i items (selected, cumulative) =
      (selected ++ first, cumulative + (first.map (shares.getD · 0)).sum) := by
  induction items generalizing i selected cumulative with
  | nil => simp [topkLoop]
  | cons p items ih =>
    obtain ⟨e, v⟩ := p
    by_cases hi : topk ≤ i
    · rw [topkLoop, if_pos (by exact_mod_cast hi), show topk - i = 0 by omega]
      simp
    · have hlt : ¬(i : ℤ) ≥ topk := by exact_mod_cast hi
      simp only [topkLoop, if_neg hlt, ih, List.map_cons]
      rw [show topk - i = topk - (i + 1) + 1 by omega, List.take_succ_cons]
      simp only [List.append_assoc, List.singleton_append, List.map_cons, List.sum_cons, add_assoc]

/-- The share of a set of experts. -/
def share (weights : PyDict ℤ ℚ) (total : ℚ) (experts : Finset ℤ) : ℚ :=
  ∑ e ∈ experts, weights.getD e 0 / total

/-- The prefix of the sorted experts that reaches the threshold. -/
def group (weights : PyDict ℤ ℚ) (total threshold : ℚ) : List ℤ :=
  Greedy.reach (weights.getD · 0 / total) threshold 0 (sortedExperts weights)

theorem selectTopExpertsByThreshold_eq (htotal : 0 < total) (threshold : ℚ) :
    selectTopExpertsByThreshold weights total threshold =
      { selected := group weights total threshold
        expertShares := expertSharesOf (mostCommon weights) total
        cumulative := ((group weights total threshold).map (weights.getD · 0 / total)).sum } := by
  rw [selectTopExpertsByThreshold, if_neg (not_le.mpr htotal)]
  simp only [thresholdLoop_eq, getD_expertSharesOf, List.nil_append, zero_add]
  rfl

theorem selectTopExpertsByTopk_eq (htotal : 0 < total) (topk : ℕ) :
    selectTopExpertsByTopk weights total topk =
      { selected := (sortedExperts weights).take topk
        expertShares := expertSharesOf (mostCommon weights) total
        cumulative := (((sortedExperts weights).take topk).map (weights.getD · 0 / total)).sum } := by
  rw [selectTopExpertsByTopk, if_neg (not_le.mpr htotal)]
  simp only [topkLoop_eq, getD_expertSharesOf, List.nil_append, zero_add, Nat.sub_zero]
  rfl

theorem group_eq_take (threshold : ℚ) :
    group weights total threshold =
      (sortedExperts weights).take (group weights total threshold).length :=
  List.prefix_iff_eq_take.mp (Greedy.reach_isPrefix _ _)

theorem nodup_group (threshold : ℚ) : (group weights total threshold).Nodup :=
  (nodup_sortedExperts weights).sublist (Greedy.reach_isPrefix _ _).sublist

/-! ## Optimality -/

theorem getD_of_mem_mostCommon {p : ℤ × ℚ} (hp : p ∈ mostCommon weights) :
    weights.getD p.1 0 = p.2 :=
  PyDict.getD_eq_of_get?_eq_some
    (PyDict.get?_eq_some_iff.mpr ((mostCommon_perm weights).mem_iff.mp hp))

theorem mem_sortedExperts_iff {e : ℤ} : e ∈ sortedExperts weights ↔ e ∈ weights.keys :=
  ((mostCommon_perm weights).map Prod.fst).mem_iff

theorem pairwise_sortedExperts (htotal : 0 < total) :
    (sortedExperts weights).Pairwise fun a b => weights.getD b 0 / total ≤ weights.getD a 0 / total := by
  have hpair : (mostCommon weights).Pairwise fun a b => a.2 ≥ b.2 := by
    have : Std.Total fun a b : ℤ × ℚ => a.2 ≥ b.2 := ⟨fun a b => le_total b.2 a.2⟩
    have : IsTrans (ℤ × ℚ) fun a b => a.2 ≥ b.2 := ⟨fun a b c hab hbc => le_trans hbc hab⟩
    exact List.pairwise_insertionSort _ _
  rw [sortedExperts, List.pairwise_map]
  refine hpair.imp_of_mem fun {a b} ha hb hab => ?_
  rw [getD_of_mem_mostCommon ha, getD_of_mem_mostCommon hb]
  exact div_le_div_of_nonneg_right hab htotal.le

theorem sum_sortedExperts :
    ((sortedExperts weights).map (weights.getD · 0 / total)).sum = weights.values.sum / total := by
  have hmap : (sortedExperts weights).map (weights.getD · 0 / total) =
      (mostCommon weights).map fun p => p.2 / total := by
    rw [sortedExperts, List.map_map]
    refine List.map_congr_left fun p hp => ?_
    simp only [Function.comp_apply, getD_of_mem_mostCommon hp]
  have hvalues : weights.values.map (· / total) = weights.entries.map fun p => p.2 / total := by
    rw [PyDict.values, List.map_map]
    rfl
  rw [hmap, ((mostCommon_perm weights).map _).sum_eq, ← hvalues]
  simp only [div_eq_mul_inv]
  rw [List.sum_map_mul_right, List.map_id']

variable (hnonneg : ∀ w ∈ weights.values, 0 ≤ w) (htotal : 0 < total)

include hnonneg htotal

/-- Experts without a weight add nothing to a share, and of the others the first ones are the best. -/
theorem share_le_sum_take {experts : Finset ℤ} {k : ℕ} (hcard : experts.card ≤ k) :
    share weights total experts ≤
      (((sortedExperts weights).take k).map (weights.getD · 0 / total)).sum := by
  have hdrop : share weights total experts =
      share weights total (experts.filter (· ∈ sortedExperts weights)) := by
    refine (Finset.sum_filter_of_ne fun e _ hne => ?_).symm
    rw [mem_sortedExperts_iff]
    have hget : weights.getD e 0 ≠ 0 := fun h => hne (by rw [h, zero_div])
    obtain ⟨v, hv⟩ := PyDict.exists_get?_of_getD_ne hget
    exact PyDict.get?_isSome_iff.mp (by rw [hv]; rfl)
  rw [hdrop]
  refine Greedy.sum_le_sum_take (pairwise_sortedExperts htotal) (fun e he => ?_) (fun e he => ?_) ?_
  · obtain ⟨p, hp, rfl⟩ := List.mem_map.mp he
    rw [getD_of_mem_mostCommon hp]
    have hmem := List.mem_map_of_mem (f := Prod.snd) ((mostCommon_perm weights).mem_iff.mp hp)
    exact div_nonneg (hnonneg _ hmem) htotal.le
  · exact (Finset.mem_filter.mp he).2
  · exact (Finset.card_filter_le _ _).trans hcard

end Selection

/-- **Greedy expert groups are minimal.** The total of a layer is the sum of the weights of its experts.
For a positive total, the group selected for a threshold has no expert twice and reaches the threshold;
no smaller set of experts does, and no set of the same size has a larger share. A larger threshold
extends the group, and the selection of as many experts by `topk` is the same. -/
theorem expert_group_minimal {records : List OutputRecord}
    (hnonneg : ∀ record ∈ records, ∀ p ∈ record.layers.entries, ∀ w, some w ∈ p.2.weights → 0 ≤ w)
    (layerIdx : ℤ) :
    let layerWeights := computeLayerExpertWeights records
    let weights := layerWeights.layerExpertWeights.getD layerIdx ∅
    let total := layerWeights.layerTotalWeight.getD layerIdx 0
    0 < total →
      total = weights.values.sum ∧
      ∀ threshold, 0 < threshold → threshold ≤ 1 →
        let s := selectTopExpertsByThreshold weights total threshold
        s.selected.Nodup ∧
        (share weights total s.selected.toFinset = s.cumulative ∧ threshold ≤ s.cumulative) ∧
        (∀ experts : Finset ℤ, experts.card < s.selected.length →
          share weights total experts < threshold) ∧
        (∀ experts : Finset ℤ, experts.card = s.selected.length →
          share weights total experts ≤ s.cumulative) ∧
        (∀ threshold', threshold ≤ threshold' → threshold' ≤ 1 →
          s.selected <+: (selectTopExpertsByThreshold weights total threshold').selected) ∧
        selectTopExpertsByTopk weights total s.selected.length = s := by
  intro layerWeights weights total htotal
  have hbalanced : layerWeights.Balanced := balanced_computeLayerExpertWeights hnonneg
  have hsum : total = weights.values.sum := hbalanced.total layerIdx
  have hweights : ∀ w ∈ weights.values, 0 ≤ w := hbalanced.nonneg layerIdx
  refine ⟨hsum, fun threshold hpos hle => ?_⟩
  simp only [selectTopExpertsByThreshold_eq htotal, selectTopExpertsByTopk_eq htotal,
    ← group_eq_take]
  have hall : ((sortedExperts weights).map (weights.getD · 0 / total)).sum = 1 := by
    rw [sum_sortedExperts, ← hsum, div_self htotal.ne']
  have hne : sortedExperts weights ≠ [] := by
    intro hnil
    rw [hnil] at hall
    exact zero_ne_one hall
  refine ⟨nodup_group threshold, ⟨?_, ?_⟩, fun experts hcard => ?_, fun experts hcard => ?_,
    fun threshold' hthreshold _ => Greedy.reach_mono hthreshold 0 _, trivial⟩
  · exact List.sum_toFinset _ (nodup_group threshold)
  · have hreach : threshold ≤ 0 + ((sortedExperts weights).map (weights.getD · 0 / total)).sum := by
      rwa [zero_add, hall]
    have hle := Greedy.le_sum_reach hne hreach
    rwa [zero_add] at hle
  · -- a smaller set is at most as good as the group without its last expert
    have hle := share_le_sum_take hweights htotal
      (Nat.le_sub_one_of_lt hcard : experts.card ≤ (group weights total threshold).length - 1)
    have hlt := Greedy.sum_take_lt_of_lt hpos
      (by omega : (group weights total threshold).length - 1 < (group weights total threshold).length)
    rw [zero_add] at hlt
    exact hle.trans_lt hlt
  · have := share_le_sum_take hweights htotal hcard.le
    rwa [← group_eq_take] at this

/-- Two lines with weights, one without, on layer 0. -/
def sampleLines : List OutputRecord :=
  let line (ids : List ℤ) (weights : List (Option ℚ)) : OutputRecord :=
    { layers := ⟨[("0", { expertIds := ids, weights })], by simp⟩ }
  [line [3, 7] [some (3 / 4), some (1 / 4)], line [7, 5] [some (1 / 2), none], line [3] []]

theorem expert_group_minimal_sample :
    let layerWeights := computeLayerExpertWeights sampleLines
    let weights := layerWeights.layerExpertWeights.getD 0 ∅
    let total := layerWeights.layerTotalWeight.getD 0 0
    (selectTopExpertsByThreshold weights total (4 / 5)).selected = [3, 7] ∧
      share weights total {3} < 4 / 5 := by
  have hnonneg : ∀ record ∈ sampleLines, ∀ p ∈ record.layers.entries, ∀ o ∈ p.2.weights, ∀ w ∈ o,
      (0 : ℚ) ≤ w := by decide +kernel
  obtain ⟨-, hselect⟩ := expert_group_minimal
    (fun record hrecord p hp w hw => hnonneg record hrecord p hp (some w) hw w rfl) 0 (by decide +kernel)
  obtain ⟨-, -, hsmaller, -⟩ := hselect (4 / 5) (by decide +kernel) (by decide +kernel)
  exact ⟨by decide +kernel, hsmaller {3} (by decide +kernel)⟩

end ComputeExpertMetrics

end MoeSpecialization.Metrics
