import MoeSpecialization.Common.TopK
import MoeSpecialization.Postprocess.Lines
import Mathlib.Algebra.Order.Group.Unbundled.Basic
import Mathlib.Data.Fintype.Card

/-!
# The routing stiffness score

Reference: `extract_layer_margin` in `metric/utils/rss.py`.

The margin of a layer is the weakest selected logit minus the strongest unselected one. On the layer that
the conversion writes for a full-width logit row and a top-`k` row, these are the order statistics
`z_(k)` and `z_(k+1)` of the row.
-/

namespace MoeSpecialization.Metrics

open Py TopK Postprocess

/-- What `extract_layer_margin` returns for a layer it accepts. -/
structure LayerMargin where
  margin : ℚ
  weakestSelectedLogit : ℚ
  strongestUnselectedLogit : ℚ
  topk : ℕ
deriving DecidableEq

/-- `infer_topk`. -/
def inferTopk (layerData : LayerData) : ℕ := layerData.expertIds.length

/-- `extract_layer_margin`. -/
def extractLayerMargin (layerData : LayerData) : Option LayerMargin :=
  let logits := layerData.logits.getD []
  if layerData.expertIds = [] ∨ logits = [] then none
  else if logits.length ≠ layerData.expertIds.length then none
  else
    match layerData.nextExpertLogit, logits.min? with
    | some nextExpertLogit, some weakest =>
      some {
        margin := weakest - nextExpertLogit
        weakestSelectedLogit := weakest
        strongestUnselectedLogit := nextExpertLogit
        topk := inferTopk layerData }
    | _, _ => none

section FullRow

variable {z : List ℚ} {ids : List ℤ}

/-- The logits of the selected experts, in slot order. -/
def selectedLogits (z : List ℚ) (ids : List ℤ) : List ℚ := ids.map fun e => z.getD e.toNat 0

/-- The logits of the other experts. -/
def excludedLogits (z : List ℚ) (ids : List ℤ) : List ℚ :=
  ((List.range z.length).filter fun (idx : ℕ) => (idx : ℤ) ∉ ids).map fun idx => z.getD idx 0

theorem pyFloat_getD_map_some {i : ℕ} (hi : i < z.length) :
    pyFloat ((z.map some).getD i none) = .ok (z.getD i 0) := by
  simp [List.getD_eq_getElem?_getD, List.getElem?_eq_getElem hi, pyFloat]

/-- On a full row, the slot loop keeps every slot and looks its logit up by expert. -/
theorem filterSlots_full (hrange : ∀ e ∈ ids, 0 ≤ e ∧ e < min (z.length : ℤ) 256)
    {weights : List (Option ℚ)} (hlen : weights.length = ids.length) (i : ℕ) :
    filterSlots (z.map some) i ((ids.map some).zip weights) =
      .ok ⟨ids, weights.map (·.getD 0), selectedLogits z ids⟩ := by
  induction ids generalizing weights i with
  | nil =>
    have hnil : weights = [] := List.length_eq_zero_iff.mp hlen
    subst hnil
    rfl
  | cons e ids ih =>
    obtain ⟨w, weights, rfl⟩ := List.exists_cons_of_length_eq_add_one hlen
    obtain ⟨hpos, hlt⟩ := hrange e (by simp)
    have hvalid : isValidExpert e = true := isValidExpert_iff.mpr (by omega)
    have hslot : slotLogit (z.map some) i e = .ok [z.getD e.toNat 0] := by
      rw [slotLogit, if_pos (by rw [List.length_map]; omega), pyFloat_getD_map_some (by omega)]
      rfl
    rw [List.map_cons, List.zip_cons_cons, filterSlots]
    simp only [if_pos hvalid, hslot]
    rw [ih (fun x hx => hrange x (by simp [hx])) (by simpa using hlen)]
    rfl

theorem unselectedLogits_full : unselectedLogits (z.map some) ids = .ok (excludedLogits z ids) := by
  rw [unselectedLogits, List.length_map, excludedLogits]
  refine mapM_eq_ok_map fun i hi => ?_
  exact pyFloat_getD_map_some (List.mem_range.mp (List.mem_filter.mp hi).1)

/-- Selected and excluded logits are all logits. -/
theorem perm_selected_excluded (hnodup : ids.Nodup)
    (hrange : ∀ e ∈ ids, 0 ≤ e ∧ e < min (z.length : ℤ) 256) :
    z.Perm (selectedLogits z ids ++ excludedLogits z ids) := by
  have hz : z = (List.range z.length).map fun idx => z.getD idx 0 := by
    refine List.ext_getElem (by simp) fun i hi _ => ?_
    simp [List.getD_eq_getElem?_getD, hi]
  -- the ids, as indices, are the indices that are not excluded
  have hids : (ids.map Int.toNat).Perm
      ((List.range z.length).filter fun (idx : ℕ) => (idx : ℤ) ∈ ids) := by
    refine (List.perm_ext_iff_of_nodup ?_ (List.nodup_range.filter _)).mpr fun i => ?_
    · refine List.Nodup.map_on (fun x hx y hy hxy => ?_) hnodup
      have := hrange x hx
      have := hrange y hy
      omega
    · simp only [List.mem_map, List.mem_filter, List.mem_range, decide_eq_true_eq]
      constructor
      · rintro ⟨e, he, rfl⟩
        have hr := hrange e he
        refine ⟨by omega, ?_⟩
        rwa [Int.toNat_of_nonneg hr.1]
      · rintro ⟨-, hmem⟩
        exact ⟨i, hmem, Int.toNat_natCast i⟩
  have hsplit := List.filter_append_perm (fun (idx : ℕ) => decide ((idx : ℤ) ∈ ids))
    (List.range z.length)
  have hperm := (hsplit.symm.trans (hids.symm.append_right _)).map fun idx => z.getD idx 0
  rw [← hz, List.map_append, List.map_map] at hperm
  simpa [selectedLogits, excludedLogits, Function.comp_def] using hperm

/-- The layer that the conversion writes for a full-width logit row and a row of valid ids. -/
theorem convertLayer_full (hrange : ∀ e ∈ ids, 0 ≤ e ∧ e < min (z.length : ℤ) 256)
    {weights : List (Option ℚ)} (hlen : weights.length = ids.length) (hne : ids ≠ [])
    (idRows : LayerRows ℤ) (weightRows logitRows : LayerRows ℚ) :
    convertLayer (some (ids.map some) :: idRows) (some weights :: weightRows)
        (some (z.map some) :: logitRows) =
      .ok { expertIds := ids
            weights := weights.map (some <| ·.getD 0)
            logits := some (selectedLogits z ids)
            nextExpertLogit := (excludedLogits z ids).max? } := by
  have hz : z ≠ [] := by
    rintro rfl
    obtain ⟨e, he⟩ := List.exists_mem_of_ne_nil _ hne
    have := hrange e he
    simp at this
    omega
  have hsel : selectedLogits z ids ≠ [] := by simpa [selectedLogits] using hne
  have hnext : nextExpertLogit (z.map some) ids = .ok (excludedLogits z ids).max? := by
    rw [nextExpertLogit, if_neg (by simp [hz, hne]), unselectedLogits_full]
    rfl
  rw [convertLayer]
  simp only [firstRow, filterSlots_full hrange hlen, bind, Except.bind, hnext, if_neg hsel,
    List.map_map, Function.comp_def]

/-- The set of selected experts. -/
def selectedSet (z : List ℚ) (ids : List ℤ) : Finset (Fin z.length) :=
  Finset.univ.filter fun i => (i : ℤ) ∈ ids

theorem card_selectedSet (hnodup : ids.Nodup)
    (hrange : ∀ e ∈ ids, 0 ≤ e ∧ e < min (z.length : ℤ) 256) :
    (selectedSet z ids).card = ids.length := by
  rw [← List.toFinset_card_of_nodup hnodup]
  refine Finset.card_bij (fun i _ => (i : ℤ)) ?_ ?_ ?_
  · intro i hi
    exact List.mem_toFinset.mpr (Finset.mem_filter.mp hi).2
  · intro i _ j _ hij
    exact Fin.ext (by exact_mod_cast hij)
  · intro e he
    have hr := hrange e (List.mem_toFinset.mp he)
    refine ⟨⟨e.toNat, by omega⟩, ?_, Int.toNat_of_nonneg hr.1⟩
    rw [selectedSet, Finset.mem_filter]
    exact ⟨Finset.mem_univ _, by simpa [Int.toNat_of_nonneg hr.1] using List.mem_toFinset.mp he⟩

/-- A selected logit is that of an index of the selected set. -/
theorem mem_selectedLogits (hrange : ∀ e ∈ ids, 0 ≤ e ∧ e < min (z.length : ℤ) 256) {x : ℚ} :
    x ∈ selectedLogits z ids ↔ ∃ i ∈ selectedSet z ids, z.get i = x := by
  constructor
  · intro hx
    obtain ⟨e, he, rfl⟩ := List.mem_map.mp hx
    have hr := hrange e he
    have hlt : e.toNat < z.length := by omega
    refine ⟨⟨e.toNat, hlt⟩, ?_, ?_⟩
    · rw [selectedSet, Finset.mem_filter]
      exact ⟨Finset.mem_univ _, by simpa [Int.toNat_of_nonneg hr.1] using he⟩
    · simp [List.getD_eq_getElem?_getD, hlt]
  · rintro ⟨i, hi, rfl⟩
    refine List.mem_map.mpr ⟨i, (Finset.mem_filter.mp hi).2, ?_⟩
    simp [List.getD_eq_getElem?_getD]

theorem mem_excludedLogits {x : ℚ} :
    x ∈ excludedLogits z ids ↔ ∃ j ∉ selectedSet z ids, z.get j = x := by
  constructor
  · intro hx
    obtain ⟨j, hj, rfl⟩ := List.mem_map.mp hx
    obtain ⟨hlt, hnot⟩ := List.mem_filter.mp hj
    rw [List.mem_range] at hlt
    refine ⟨⟨j, hlt⟩, ?_, ?_⟩
    · simpa [selectedSet] using hnot
    · simp [List.getD_eq_getElem?_getD, hlt]
  · rintro ⟨j, hj, rfl⟩
    refine List.mem_map.mpr ⟨j, List.mem_filter.mpr ⟨List.mem_range.mpr j.2, ?_⟩, ?_⟩
    · simpa [selectedSet] using hj
    · simp [List.getD_eq_getElem?_getD]

/-- The weakest selected logit is above the strongest excluded one exactly if all are. -/
theorem lt_iff_forall_selected (hrange : ∀ e ∈ ids, 0 ≤ e ∧ e < min (z.length : ℤ) 256) {zk zk1 : ℚ}
    (hzk : (selectedLogits z ids).min? = some zk) (hzk1 : (excludedLogits z ids).max? = some zk1) :
    zk1 < zk ↔ ∀ i ∈ selectedSet z ids, ∀ j ∉ selectedSet z ids, z.get j < z.get i := by
  obtain ⟨hmemk, hmink⟩ := List.min?_eq_some_iff.mp hzk
  obtain ⟨hmemk1, hmaxk1⟩ := List.max?_eq_some_iff.mp hzk1
  constructor
  · intro hgap i hi j hj
    have hxi := hmink _ ((mem_selectedLogits hrange).mpr ⟨i, hi, rfl⟩)
    have hyj := hmaxk1 _ (mem_excludedLogits.mpr ⟨j, hj, rfl⟩)
    exact (hyj.trans_lt hgap).trans_le hxi
  · intro hstrict
    obtain ⟨i, hi, rfl⟩ := (mem_selectedLogits hrange).mp hmemk
    obtain ⟨j, hj, rfl⟩ := mem_excludedLogits.mp hmemk1
    exact hstrict i hi j hj

end FullRow

/-- **The margin is the gap of the order statistics.** For a full-width logit row `z` and a row of
distinct valid ids that is a top set of `z`, the layer of the output line has the margin
`z_(k) - z_(k+1)`. It is not negative, and it is positive exactly when no other set of that size is a top
set. -/
theorem extractLayerMargin_eq_gap {record : Record} {layerIdx : ℕ} {z : List ℚ} {ids : List ℤ}
    {weights : List (Option ℚ)} {idRows : LayerRows ℤ} {weightRows logitRows : LayerRows ℚ}
    (hids : record.topkIdsOfLayer.getD layerIdx [] = some (ids.map some) :: idRows)
    (hweights : record.topkWeightsOfLayer.getD layerIdx [] = some weights :: weightRows)
    (hlogits : record.routerLogitsOfLayer.getD layerIdx [] = some (z.map some) :: logitRows)
    (hpos : 1 ≤ ids.length) (hlt : ids.length < z.length) (hnodup : ids.Nodup)
    (hrange : ∀ e ∈ ids, 0 ≤ e ∧ e < min (z.length : ℤ) 256)
    (htop : IsTopSet z.get (selectedSet z ids)) (hlen : weights.length = ids.length) :
    ∃ d m zk zk1, record.convertLayerAt layerIdx = .ok d ∧
      (∀ line, convertRecordToOutputFormat record = .ok line →
        line.layers.get? (toString layerIdx) = some d) ∧
      extractLayerMargin d = some m ∧
      kthLargest z ids.length = some zk ∧ kthLargest z (ids.length + 1) = some zk1 ∧
      m.margin = zk - zk1 ∧ 0 ≤ m.margin ∧
      (0 < m.margin ↔
        ∃! S : Finset (Fin z.length), S.card = ids.length ∧ IsTopSet z.get S) := by
  have hne : ids ≠ [] := List.ne_nil_of_length_pos hpos
  have hsel : selectedLogits z ids ≠ [] := by simpa [selectedLogits] using hne
  have hsellen : (selectedLogits z ids).length = ids.length := List.length_map _
  have hperm := perm_selected_excluded hnodup hrange
  have hexcl : excludedLogits z ids ≠ [] := by
    have hlength := hperm.length_eq
    rw [List.length_append, hsellen] at hlength
    exact List.ne_nil_of_length_pos (by omega)
  have hge : ∀ x ∈ selectedLogits z ids, ∀ y ∈ excludedLogits z ids, y ≤ x := by
    intro x hx y hy
    obtain ⟨i, hi, rfl⟩ := (mem_selectedLogits hrange).mp hx
    obtain ⟨j, hj, rfl⟩ := mem_excludedLogits.mp hy
    exact htop i hi j hj
  -- the sorted row splits into the selected and the excluded logits
  obtain ⟨hk, hk1⟩ := kthLargest_split hperm hge hsel
  rw [hsellen] at hk hk1
  obtain ⟨zk, hzk⟩ : ∃ zk, (selectedLogits z ids).min? = some zk :=
    Option.isSome_iff_exists.mp (by simpa [List.isSome_min?_iff] using hsel)
  obtain ⟨zk1, hzk1⟩ : ∃ zk1, (excludedLogits z ids).max? = some zk1 :=
    Option.isSome_iff_exists.mp (by simpa [List.isSome_max?_iff] using hexcl)
  have hd := convertLayer_full hrange hlen hne idRows weightRows logitRows
  rw [← hids, ← hweights, ← hlogits, ← Record.convertLayerAt] at hd
  have hle : zk1 ≤ zk := hge zk (List.min?_eq_some_iff.mp hzk).1 zk1 (List.max?_eq_some_iff.mp hzk1).1
  refine ⟨_, ⟨zk - zk1, zk, zk1, ids.length⟩, zk, zk1, hd,
    fun line hline => convertRecord_get? hline hd hne, ?_, hk.trans hzk, hk1.trans hzk1, rfl,
    sub_nonneg.mpr hle, ?_⟩
  · simp [extractLayerMargin, hne, hsel, hsellen, hzk, hzk1, inferTopk]
  · -- the margin is positive if every selected logit is strictly larger than every excluded one
    rw [← card_selectedSet hnodup hrange, htop.existsUnique_iff, sub_pos]
    exact lt_iff_forall_selected hrange hzk hzk1

/-- A layer of three experts, two of which are selected; the selection is not in the order of the
logits. -/
def sampleRouting : Record where
  topkIdsOfLayer := [[some [some 2, some 0]]]
  topkWeightsOfLayer := [[some [some (1/4), some (3/4)]]]
  routerLogitsOfLayer := [[some [some 5, some 1, some 2]]]

theorem extractLayerMargin_eq_gap_sample :
    ∃ d m, sampleRouting.convertLayerAt 0 = .ok d ∧ extractLayerMargin d = some m ∧ m.margin = 1 ∧
      ∃! S : Finset (Fin 3), S.card = 2 ∧ IsTopSet [(5 : ℚ), 1, 2].get S := by
  have htop : IsTopSet [(5 : ℚ), 1, 2].get (selectedSet [5, 1, 2] [2, 0]) := by
    unfold IsTopSet
    decide
  obtain ⟨d, m, zk, zk1, hd, -, hm, hk, hk1, hgap, -, huniq⟩ :=
    @extractLayerMargin_eq_gap sampleRouting 0 [5, 1, 2] [2, 0] _ _ _ _ rfl rfl rfl
      (by decide) (by decide) (by decide) (by decide) htop rfl
  have hzk : zk = 2 := Option.some.inj (hk.symm.trans (by decide))
  have hzk1 : zk1 = 1 := Option.some.inj (hk1.symm.trans (by decide))
  have hone : m.margin = 1 := by rw [hgap, hzk, hzk1]; decide +kernel
  exact ⟨d, m, hd, hm, hone, huniq.mp (by rw [hone]; decide)⟩

end MoeSpecialization.Metrics
