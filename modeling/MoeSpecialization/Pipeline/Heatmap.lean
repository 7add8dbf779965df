import MoeSpecialization.Metrics.CountMatrix
import MoeSpecialization.Pipeline.RecordedPass
import MoeSpecialization.Postprocess.Step

/-!
# The shape of a count matrix

Reference: `create_heatmap_data` in `metric/postprocess/postprocessing_for_image_and_count.py`, against
the analyzers in `metric/utils/process_count_matrix.py`.

`create_heatmap_data` takes the dimensions of its matrix from the counts: it ends at the highest layer
and at the highest expert that were counted. The analyzers stack the matrices of several domains. For
domains of one model they get matrices of one shape, and return, if and only if the domains agree in the
highest counted layer and in the highest counted expert.
-/

namespace MoeSpecialization.Pipeline

open Py Postprocess Metrics RecordedPass

variable {numExperts : ℕ}

/-! ## What is counted -/

/-- The layers on which a slot is counted. -/
def countedLayers (passes : List (RecordedPass numExperts)) (eosTokenIds : List ℤ) : List ℕ :=
  (analysed passes eosTokenIds).flatMap fun p =>
    (List.range p.topkIds.length).filter fun l => (p.slots l).any isValidExpert

/-- The experts that are counted. -/
def countedExperts (passes : List (RecordedPass numExperts)) (eosTokenIds : List ℤ) : List ℤ :=
  (analysed passes eosTokenIds).flatMap fun p => p.topkIds.flatten.flatten.filter isValidExpert

/-- The highest counted layer, `0` if there is none. -/
def topLayer (passes : List (RecordedPass numExperts)) (eosTokenIds : List ℤ) : ℕ :=
  (countedLayers passes eosTokenIds).foldl max 0

/-- The highest counted expert, `0` if there is none. -/
def topExpert (passes : List (RecordedPass numExperts)) (eosTokenIds : List ℤ) : ℤ :=
  (countedExperts passes eosTokenIds).foldl max 0

theorem mem_slots_iff {p : RecordedPass numExperts} {e : ℤ} :
    e ∈ p.topkIds.flatten.flatten ↔ ∃ l < p.topkIds.length, e ∈ p.slots l := by
  simp only [List.mem_flatten, slots]
  constructor
  · rintro ⟨row, ⟨rows, hrows, hrow⟩, he⟩
    obtain ⟨l, hl, rfl⟩ := List.mem_iff_getElem.mp hrows
    refine ⟨l, hl, row, ?_, he⟩
    rwa [List.getD_eq_getElem?_getD, List.getElem?_eq_getElem hl]
  · rintro ⟨l, hl, row, hrow, he⟩
    rw [List.getD_eq_getElem?_getD, List.getElem?_eq_getElem hl] at hrow
    exact ⟨row, ⟨_, List.getElem_mem hl, hrow⟩, he⟩

theorem slots_eq_nil {p : RecordedPass numExperts} {l : ℕ} (h : p.topkIds.length ≤ l) :
    p.slots l = [] := by
  rw [slots, List.getD_eq_getElem?_getD, List.getElem?_eq_none h]
  rfl

theorem mem_countedLayers {passes : List (RecordedPass numExperts)} {eosTokenIds : List ℤ} {l : ℕ} :
    l ∈ countedLayers passes eosTokenIds ↔
      ∃ e, ∃ p ∈ analysed passes eosTokenIds, e ∈ p.slots l ∧ isValidExpert e = true := by
  simp only [countedLayers, List.mem_flatMap, List.mem_filter, List.mem_range, List.any_eq_true]
  constructor
  · rintro ⟨p, hp, -, e, he, hv⟩
    exact ⟨e, p, hp, he, hv⟩
  · rintro ⟨e, p, hp, he, hv⟩
    refine ⟨p, hp, ?_, e, he, hv⟩
    by_contra hge
    rw [slots_eq_nil (not_lt.mp hge)] at he
    cases he

theorem mem_countedExperts {passes : List (RecordedPass numExperts)} {eosTokenIds : List ℤ} {e : ℤ} :
    e ∈ countedExperts passes eosTokenIds ↔
      ∃ l, ∃ p ∈ analysed passes eosTokenIds, e ∈ p.slots l ∧ isValidExpert e = true := by
  simp only [countedExperts, List.mem_flatMap, List.mem_filter, mem_slots_iff]
  constructor
  · rintro ⟨p, hp, ⟨l, -, he⟩, hv⟩
    exact ⟨l, p, hp, he, hv⟩
  · rintro ⟨l, p, hp, he, hv⟩
    refine ⟨p, hp, ⟨l, ?_, he⟩, hv⟩
    by_contra hge
    rw [slots_eq_nil (not_lt.mp hge)] at he
    cases he

/-! ## The counts as a dictionary -/

theorem countSlot_live (layerIdx : ℕ) (id : Option ℤ) :
    PyM.Preserves (fun t t' : ExpertTotals => t.layerExpertCounts.Live → t'.layerExpertCounts.Live)
      (countSlot layerIdx id) := by
  cases id with
  | none => exact PyM.preserves_throw (fun _ h => h) _
  | some e =>
    rw [countSlot]
    split
    · exact PyM.preserves_modify fun t h => h.addAt layerIdx e fun x => Nat.succ_ne_zero x
    · exact PyM.preserves_pure (fun _ h => h) ()

theorem weighSlot_live (layerIdx : ℕ) (slot : Option ℤ × Option ℚ) :
    PyM.Preserves (fun t t' : ExpertTotals => t.layerExpertCounts.Live → t'.layerExpertCounts.Live)
      (weighSlot layerIdx slot) := by
  obtain ⟨id, w⟩ := slot
  cases id with
  | none => exact PyM.preserves_throw (fun _ h => h) _
  | some e =>
    rw [weighSlot]
    split
    · refine PyM.preserves_bind (fun _ _ _ hab hbc h => hbc (hab h))
        (PyM.preserves_ofExcept (fun _ h => h) _) fun w => ?_
      exact PyM.preserves_modify fun t h => h
    · exact PyM.preserves_pure (fun _ h => h) ()

/-- The analysis adds only positive counts, so that a count has a key exactly if it is not zero. -/
theorem analyzeExpertSelection_live (records : List Record) (eosTokenIds : List ℤ) :
    PyM.Preserves (fun t t' : ExpertTotals => t.layerExpertCounts.Live → t'.layerExpertCounts.Live)
      (analyzeExpertSelection records eosTokenIds) := by
  have hrefl : ∀ t : ExpertTotals, t.layerExpertCounts.Live → t.layerExpertCounts.Live := fun _ h => h
  have htrans : ∀ a b c : ExpertTotals, (a.layerExpertCounts.Live → b.layerExpertCounts.Live) →
      (b.layerExpertCounts.Live → c.layerExpertCounts.Live) → a.layerExpertCounts.Live →
      c.layerExpertCounts.Live := fun _ _ _ hab hbc h => hbc (hab h)
  refine PyM.preserves_foldlM hrefl htrans (fun stats record => ?_) records 0
  unfold analyzeRecord
  split
  · exact PyM.preserves_pure hrefl _
  · refine PyM.preserves_bind htrans ?_ fun _ => PyM.preserves_pure hrefl _
    refine PyM.preserves_forM hrefl htrans fun layer _ => ?_
    refine PyM.preserves_forM hrefl htrans fun row _ => ?_
    simp only [analyzeRow_eq]
    refine PyM.preserves_bind htrans ?_ fun _ => ?_
    · exact PyM.preserves_forM hrefl htrans fun id _ => countSlot_live _ id
    · split
      · exact PyM.preserves_forM hrefl htrans fun slot _ => weighSlot_live _ slot
      · exact PyM.preserves_pure hrefl _

/-- The matrix that `create_heatmap_data` makes of the counts of some passes. -/
def heatmapOf (passes : List (RecordedPass numExperts)) (eosTokenIds : List ℤ) : Rows ℕ :=
  createHeatmapData (PyM.final (analyzeExpertSelection (passes.map record) eosTokenIds)
    ∅).layerExpertCounts none none

/-- The keys of the counts are the layers and the experts that are counted. -/
theorem counts_keys (passes : List (RecordedPass numExperts)) (eosTokenIds : List ℤ) :
    let counts := (PyM.final (analyzeExpertSelection (passes.map record) eosTokenIds)
      ∅).layerExpertCounts
    (∀ l, l ∈ counts.keys ↔ l ∈ countedLayers passes eosTokenIds) ∧
      ∀ e, (∃ l, e ∈ (counts.getD l ∅).keys) ↔ e ∈ countedExperts passes eosTokenIds := by
  obtain ⟨stats, totals, hrun, hcounts⟩ := exists_analyzeExpertSelection passes eosTokenIds
  have hfinal : PyM.final (analyzeExpertSelection (passes.map record) eosTokenIds) ∅ = totals := by
    rw [PyM.final, hrun]
  have hlive := analyzeExpertSelection_live (passes.map record) eosTokenIds ∅ PyDict.live_empty
  rw [hfinal] at hlive ⊢
  have hne : ∀ l e, totals.layerExpertCounts.at2 l e ≠ 0 ↔
      ∃ p ∈ analysed passes eosTokenIds, e ∈ p.slots l ∧ isValidExpert e = true := by
    intro l e
    rw [hcounts, Ne, List.sum_eq_zero_iff, not_forall₂]
    simp only [List.mem_map, exists_prop]
    constructor
    · rintro ⟨_, ⟨p, hp, rfl⟩, hpos⟩
      have hmem := List.count_pos_iff.mp (Nat.pos_of_ne_zero hpos)
      exact ⟨p, hp, List.mem_filter.mp hmem⟩
    · rintro ⟨p, hp, hmem⟩
      exact ⟨_, ⟨p, hp, rfl⟩, (List.count_pos_iff.mpr (List.mem_filter.mpr hmem)).ne'⟩
  constructor
  · intro l
    rw [hlive.mem_keys, mem_countedLayers]
    exact exists_congr fun e => hne l e
  · intro e
    rw [mem_countedExperts]
    exact exists_congr fun l => hlive.mem_keys_row.trans (hne l e)

/-! ## The dimensions -/

/-- The maximum depends on the elements only. -/
theorem foldl_max_congr {α : Type} [LinearOrder α] (b : α) {xs ys : List α}
    (h : ∀ x, x ∈ xs ↔ x ∈ ys) : xs.foldl max b = ys.foldl max b := by
  have hmax : (b :: xs).max? = (b :: ys).max? := by
    have hys : (b :: ys).max? = some (ys.foldl max b) := List.max?_cons'
    rw [hys]
    obtain ⟨hmem, hle⟩ := List.max?_eq_some_iff.mp hys
    refine List.max?_eq_some_iff.mpr ⟨?_, fun x hx => hle x ?_⟩
    · rw [List.mem_cons] at hmem ⊢
      exact hmem.imp_right (h _).mpr
    · rw [List.mem_cons] at hx ⊢
      exact hx.imp_right (h _).mp
  rw [List.max?_cons', List.max?_cons'] at hmax
  exact Option.some.inj hmax

theorem max?_succ_getD (xs : List ℕ) : (xs.max?.map (· + 1)).getD 1 = xs.foldl max 0 + 1 := by
  cases xs with
  | nil => rfl
  | cons x xs => rw [List.max?_cons', List.foldl_cons, Nat.zero_max]; rfl

/-- A maximum of maxima, over lists that may be empty. -/
theorem foldl_max_max? (xss : List (List ℤ)) {m : ℤ} (hm : 0 ≤ m) :
    xss.foldl (fun m xs => max m (xs.max?.getD 0)) m = xss.flatten.foldl max m := by
  induction xss generalizing m with
  | nil => rfl
  | cons xs xss ih =>
    have hstep : max m (xs.max?.getD 0) = xs.foldl max m := by
      cases xs with
      | nil => exact max_eq_left hm
      | cons x xs => rw [List.max?_cons', Option.getD_some, List.foldl_cons, List.foldl_assoc]
    rw [List.foldl_cons, hstep, List.flatten_cons, List.foldl_append, ih]
    rw [← hstep]
    exact le_max_of_le_left hm

theorem topExpert_nonneg (passes : List (RecordedPass numExperts)) (eosTokenIds : List ℤ) :
    0 ≤ topExpert passes eosTokenIds := by
  have hmax : (0 :: countedExperts passes eosTokenIds).max? = some (topExpert passes eosTokenIds) :=
    List.max?_cons'
  exact (List.max?_eq_some_iff.mp hmax).2 0 (by simp)

/-- The matrix ends at the highest counted layer and expert. -/
theorem heatmapOf_shape (passes : List (RecordedPass numExperts)) (eosTokenIds : List ℤ) :
    HasShape (topLayer passes eosTokenIds + 1) ((topExpert passes eosTokenIds).toNat + 1)
      (heatmapOf passes eosTokenIds) := by
  obtain ⟨hlayers, hexperts⟩ := counts_keys passes eosTokenIds
  rw [heatmapOf]
  generalize (PyM.final (analyzeExpertSelection (passes.map record) eosTokenIds)
    ∅).layerExpertCounts = counts at hlayers hexperts
  have hrows : (counts.keys.max?.map (· + 1)).getD 1 = topLayer passes eosTokenIds + 1 := by
    rw [max?_succ_getD, topLayer, foldl_max_congr 0 hlayers]
  have hcols : counts.values.foldl (fun m layerData => max m (layerData.keys.max?.getD 0)) 0 =
      topExpert passes eosTokenIds := by
    have hmap := foldl_max_max? (counts.values.map PyDict.keys) le_rfl
    rw [List.foldl_map] at hmap
    rw [hmap, topExpert]
    refine foldl_max_congr 0 fun e => ?_
    rw [← hexperts, ← List.flatMap_def, List.mem_flatMap]
    constructor
    · rintro ⟨row, hrow, he⟩
      obtain ⟨l, hl⟩ := PyDict.mem_values_iff.mp hrow
      exact ⟨l, by rwa [PyDict.getD_eq_of_get?_eq_some hl]⟩
    · rintro ⟨l, he⟩
      cases hl : counts.get? l with
      | none =>
        rw [PyDict.getD, hl] at he
        cases he
      | some row =>
        rw [PyDict.getD_eq_of_get?_eq_some hl] at he
        exact ⟨row, PyDict.mem_values_iff.mpr ⟨l, hl⟩, he⟩
  have hpos := topExpert_nonneg passes eosTokenIds
  have hcols' : (topExpert passes eosTokenIds + 1).toNat = (topExpert passes eosTokenIds).toNat + 1 := by
    omega
  rw [createHeatmapData]
  simp only [Option.getD_none, hrows, hcols, hcols']
  refine ⟨by rw [List.length_map, List.length_range], fun row hrow => ?_⟩
  obtain ⟨l, -, rfl⟩ := List.mem_map.mp hrow
  rw [List.length_map, List.length_range]

/-! ## The analyzers -/

section Domains

variable {Frame : Type} (lib : Scientific Frame)

/-- The matrices of the domains of one model have one shape, and both analyzers return on them. -/
def Comparable (domains : PyDict String (List (RecordedPass numExperts))) (eosTokenIds : List ℤ) : Prop :=
  let rawData := domains.mapValues fun passes => heatmapOf passes eosTokenIds
  (∃ rows cols, ∀ m ∈ rawData.values, HasShape rows cols m) ∧
    (∃ similarity, computeDomainSimilarity lib (normalizeData rawData) = .ok similarity) ∧
    ∃ trajectories, analyzeLayerTrajectories lib (normalizeData rawData) = .ok trajectories

variable {lib}

/-- **Comparable count matrices.** For every non-empty collection of domains, the matrices have one shape
and the analyzers return, if and only if all domains have the same highest counted layer and the same
highest counted expert. -/
theorem comparable_iff (hlib : lib.Lawful) {domains : PyDict String (List (RecordedPass numExperts))}
    (hne : domains.values ≠ []) (eosTokenIds : List ℤ) :
    Comparable lib domains eosTokenIds ↔ ∀ a ∈ domains.values, ∀ b ∈ domains.values,
      topLayer a eosTokenIds = topLayer b eosTokenIds ∧
        topExpert a eosTokenIds = topExpert b eosTokenIds := by
  constructor
  · rintro ⟨⟨rows, cols, hshape⟩, -⟩ a ha b hb
    rw [PyDict.values_mapValues] at hshape
    have hshapes : ∀ d ∈ domains.values, topLayer d eosTokenIds + 1 = rows ∧
        (topExpert d eosTokenIds).toNat + 1 = cols := fun d hd =>
      (heatmapOf_shape d eosTokenIds).unique (hshape _ (List.mem_map_of_mem hd)) (Nat.succ_pos _)
    obtain ⟨hra, hca⟩ := hshapes a ha
    obtain ⟨hrb, hcb⟩ := hshapes b hb
    have hposa := topExpert_nonneg a eosTokenIds
    have hposb := topExpert_nonneg b eosTokenIds
    omega
  · intro hsame
    obtain ⟨a, ha⟩ := List.exists_mem_of_ne_nil _ hne
    have hshape : ∀ m ∈ (domains.mapValues fun passes => heatmapOf passes eosTokenIds).values,
        HasShape (topLayer a eosTokenIds + 1) ((topExpert a eosTokenIds).toNat + 1) m := by
      intro m hm
      rw [PyDict.values_mapValues] at hm
      obtain ⟨b, hb, rfl⟩ := List.mem_map.mp hm
      obtain ⟨hlayer, hexpert⟩ := hsame a ha b hb
      rw [hlayer, hexpert]
      exact heatmapOf_shape b eosTokenIds
    have hnormalized : ∀ d ∈ normalizeData (domains.mapValues fun passes => heatmapOf passes eosTokenIds),
        HasShape (topLayer a eosTokenIds + 1) ((topExpert a eosTokenIds).toNat + 1) d.2 := by
      intro d hd
      obtain ⟨e, he, rfl⟩ := List.mem_map.mp hd
      exact (hshape e.2 (List.mem_map_of_mem he)).normalize
    have hnonempty : normalizeData (domains.mapValues fun passes => heatmapOf passes eosTokenIds) ≠ [] := by
      simpa [normalizeData, PyDict.mapValues, PyDict.values] using hne
    exact ⟨⟨_, _, hshape⟩,
      computeDomainSimilarity_ok hlib (Nat.succ_pos _) (Nat.succ_pos _) hnormalized hnonempty,
      analyzeLayerTrajectories_ok hlib (Nat.succ_pos _) (Nat.succ_pos _) hnormalized hnonempty⟩

end Domains

/-- A pass of one token of a model with one layer and two experts, routed to one of them. -/
def oneTokenPass (e : ℤ) : RecordedPass 2 where
  topkIds := [[[e]]]
  topkWeights := [[[1]]]
  routerLogits := [[[0, 0]]]
  weights_shape := rfl
  logits_shape := rfl

/-- Two domains of one token each. -/
def twoDomains (e e' : ℤ) : PyDict String (List (RecordedPass 2)) where
  entries := [("math", [oneTokenPass e]), ("code", [oneTokenPass e'])]
  nodup := by simp

theorem comparable_iff_sample : Comparable sampleLib (twoDomains 0 0) [] := by
  refine (comparable_iff lawful_sampleLib (by decide) []).mpr ?_
  decide

/-- The domains use one expert each, and not the same one. -/
theorem not_comparable_other_expert :
    ¬Comparable sampleLib (twoDomains 0 1) [] ∧
      ∃ e, computeDomainSimilarity sampleLib (normalizeData
        ((twoDomains 0 1).mapValues fun passes => heatmapOf passes [])) = .error e := by
  refine ⟨?_, _, rfl⟩
  rintro ⟨⟨rows, cols, hshape⟩, -⟩
  have hmath := (hshape [[1]] (by decide)).2 [1] (by decide)
  have hcode := (hshape [[0, 1]] (by decide)).2 [0, 1] (by decide)
  rw [← hmath] at hcode
  exact absurd hcode (by decide)

end MoeSpecialization.Pipeline
