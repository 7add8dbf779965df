import MoeSpecialization.Metrics.Rss
import MoeSpecialization.Pipeline.Attribution
import MoeSpecialization.Postprocess.Consistency
import MoeSpecialization.Recorder.Buffers

/-!
# What the postprocessor keeps of a recorded pass

A recorded pass has a row of ids for every layer and token, a weight for every id, and a logit for every
logical expert of the model; this is the shape of what `collect` cuts out of the buffers
(`RecordedPass.ofCollect`). On a pass of this shape the conversion and the analysis return, and keep the
ids of `isValidExpert`: the conversion those of the first row of a layer, the analysis those of all rows.
-/

namespace MoeSpecialization.Pipeline

open Py Recorder Postprocess Metrics

/-- A recorded pass of a model with `numExperts` logical experts, with the labels that alignment added. -/
structure RecordedPass (numExperts : ℕ) where
  labels : Record := {}
  topkIds : List (List (List ℤ))
  topkWeights : List (List (List ℚ))
  routerLogits : List (List (List ℚ))
  weights_shape : topkWeights.map (·.map List.length) = topkIds.map (·.map List.length)
  logits_shape : routerLogits.map (·.map List.length) = topkIds.map (·.map fun _ => numExperts)

/-- The lengths of the rows of a nested list that was cut out of a buffer. -/
theorem map_length_takeRows {α : Type} (t : Tensor3 α) (n : ℕ) :
    (t.takeRows n).map (·.map List.length) =
      List.replicate t.dim0 (List.replicate (min n t.dim1) t.dim2) := by
  simp [Tensor3.takeRows, Tensor3.layerRows, Function.comp_def, List.map_const']

/-- The nested lists of `collect` have the same layers and rows; a row has as many weights as ids, and a
logit for every logical expert. -/
theorem collect_shapes {cfg : RecorderConfig} {g : Gatherer} (hg : g.Shaped cfg) {data : SinglePassData}
    (h : g.collect cfg = .ok data) :
    data.topkWeightsOfLayer.map (·.map List.length) = data.topkIdsOfLayer.map (·.map List.length) ∧
      data.routerLogitsOfLayer.map (·.map List.length) =
        data.topkIdsOfLayer.map (·.map fun _ => cfg.numLogicalExperts) := by
  cases hmeta : g.metadata with
  | none =>
    rw [Gatherer.collect, hmeta] at h
    cases h
  | some batch =>
    obtain ⟨hids, hlogits, hweights, -⟩ := collect_eq_ok hmeta h
    rw [hids, hlogits, hweights]
    constructor
    · rw [map_length_takeRows, map_length_takeRows, hg.weights_dim0, hg.weights_dim1, hg.weights_dim2,
        hg.ids_dim0, hg.ids_dim1]
    · have hrows : ∀ rows : List (List ℤ), rows.map (fun _ => cfg.numLogicalExperts) =
          (rows.map List.length).map fun _ => cfg.numLogicalExperts := by
        intro rows
        rw [List.map_map]
        rfl
      have hmap := congrArg (List.map (List.map fun _ => cfg.numLogicalExperts))
        (map_length_takeRows g.topkIdsOfLayer batch.inputIds.length)
      rw [List.map_map] at hmap
      rw [map_length_takeRows, hg.logits_dim0, hg.logits_dim1, hg.logits_dim2, funext hrows]
      refine Eq.trans ?_ hmap.symm
      rw [List.map_replicate, List.map_replicate, hg.ids_dim0, hg.ids_dim1]

namespace RecordedPass

variable {numExperts : ℕ}

/-- The data that `collect` returns is a recorded pass. -/
def ofCollect {cfg : RecorderConfig} {g : Gatherer} (hg : g.Shaped cfg) {data : SinglePassData}
    (h : g.collect cfg = .ok data) (labels : Record) : RecordedPass cfg.numLogicalExperts where
  labels := labels
  topkIds := data.topkIdsOfLayer
  topkWeights := data.topkWeightsOfLayer
  routerLogits := data.routerLogitsOfLayer
  weights_shape := (collect_shapes hg h).1
  logits_shape := (collect_shapes hg h).2

/-- The record as the postprocessor reads it. -/
def record (p : RecordedPass numExperts) : Record :=
  { p.labels with
    topkIdsOfLayer := toRows p.topkIds
    topkWeightsOfLayer := toRows p.topkWeights
    routerLogitsOfLayer := toRows p.routerLogits }

/-- The ids of the first row of a layer. -/
def firstIds (p : RecordedPass numExperts) (l : ℕ) : List ℤ := (p.topkIds.getD l []).headD []

/-- The weights of the first row of a layer. -/
def firstWeights (p : RecordedPass numExperts) (l : ℕ) : List ℚ := (p.topkWeights.getD l []).headD []

/-- The logits of the first row of a layer. -/
def firstLogits (p : RecordedPass numExperts) (l : ℕ) : List ℚ := (p.routerLogits.getD l []).headD []

/-- The ids of all rows of a layer. -/
def slots (p : RecordedPass numExperts) (l : ℕ) : List ℤ := (p.topkIds.getD l []).flatten

/-- The first row of a layer, mapped. -/
theorem head?_getD_map {α β : Type} (f : α → β) (layers : List (List α)) (l : ℕ) :
    ((layers.map (·.map f)).getD l []).head? = (layers.getD l []).head?.map f := by
  rw [List.getD_eq_getElem?_getD, List.getElem?_map, List.getD_eq_getElem?_getD]
  cases layers[l]? with
  | none => rfl
  | some rows => exact List.head?_map

theorem length_firstWeights (p : RecordedPass numExperts) (l : ℕ) :
    (p.firstWeights l).length = (p.firstIds l).length := by
  have hshape := congrArg (fun shape => (shape.getD l []).head?) p.weights_shape
  simp only [head?_getD_map] at hshape
  rw [firstWeights, firstIds, List.headD_eq_head?_getD, List.headD_eq_head?_getD]
  generalize (p.topkWeights.getD l []).head? = weights at hshape
  generalize (p.topkIds.getD l []).head? = ids at hshape
  match weights, ids with
  | none, none => rfl
  | some _, some _ => exact Option.some.inj hshape

/-- A layer with an id in its first row has a full logit row. -/
theorem length_firstLogits (p : RecordedPass numExperts) {l : ℕ} (h : p.firstIds l ≠ []) :
    (p.firstLogits l).length = numExperts := by
  have hshape := congrArg (fun shape => (shape.getD l []).head?) p.logits_shape
  simp only [head?_getD_map] at hshape
  rw [firstIds, List.headD_eq_head?_getD] at h
  obtain ⟨row, hrow⟩ : ∃ row, (p.topkIds.getD l []).head? = some row := by
    cases hi : (p.topkIds.getD l []).head? with
    | none => exact absurd (by rw [hi]; rfl) h
    | some row => exact ⟨row, rfl⟩
  rw [hrow] at hshape
  obtain ⟨logits, hlogits, hlen⟩ := Option.map_eq_some_iff.mp hshape
  rw [firstLogits, List.headD_eq_head?_getD, hlogits]
  exact hlen

theorem firstRow_toRows {α : Type} (layers : List (List (List α))) (l : ℕ) :
    firstRow ((toRows layers).getD l []) = ((layers.getD l []).headD []).map some := by
  rw [toRows, List.getD_eq_getElem?_getD, List.getElem?_map, List.getD_eq_getElem?_getD]
  cases layers[l]? with
  | none => rfl
  | some rows =>
    cases rows with
    | nil => rfl
    | cons row rows => rfl

theorem firstRow_topkIds (p : RecordedPass numExperts) (l : ℕ) :
    firstRow (p.record.topkIdsOfLayer.getD l []) = (p.firstIds l).map some := firstRow_toRows _ l

theorem firstRow_topkWeights (p : RecordedPass numExperts) (l : ℕ) :
    firstRow (p.record.topkWeightsOfLayer.getD l []) = (p.firstWeights l).map some := firstRow_toRows _ l

theorem firstRow_routerLogits (p : RecordedPass numExperts) (l : ℕ) :
    firstRow (p.record.routerLogitsOfLayer.getD l []) = (p.firstLogits l).map some := firstRow_toRows _ l

/-! ## The conversion -/

theorem keptIds_map_some (ids : List ℤ) : keptIds (ids.map some) = ids.filter isValidExpert := by
  rw [keptIds, List.filterMap_map, ← List.filterMap_eq_filter]
  refine List.filterMap_congr fun e _ => ?_
  by_cases he : isValidExpert e = true <;> simp [Option.filter, Option.guard, he]

/-- The conversion keeps the valid ids of the first row. -/
theorem map_fst_kept (p : RecordedPass numExperts) (l : ℕ) :
    (p.record.kept l).map Prod.fst = (p.firstIds l).filter isValidExpert := by
  have hlen : ((p.firstWeights l).map some).length = ((p.firstIds l).map some).length := by
    rw [List.length_map, List.length_map, p.length_firstWeights]
  rw [Record.kept, map_fst_keptSlots_zip, firstRow_topkIds, firstRow_topkWeights, hlen,
    List.take_length, keptIds_map_some]

theorem exists_convertRecord (p : RecordedPass numExperts) :
    ∃ line, convertRecordToOutputFormat p.record = .ok line := by
  refine (exists_convertRecord_iff p.record).mpr fun l => .inr ?_
  rw [firstRow_routerLogits]
  simp

/-- The slot loop on a row whose valid ids all have a logit: it keeps them and looks their logits up by
expert. -/
theorem filterSlots_valid {z : List ℚ} {ids : List ℤ}
    (hlt : ∀ e ∈ ids, isValidExpert e = true → e < z.length) {weights : List (Option ℚ)}
    (hlen : weights.length = ids.length) (i : ℕ) :
    ∃ ws, filterSlots (z.map some) i ((ids.map some).zip weights) =
      .ok ⟨ids.filter isValidExpert, ws, selectedLogits z (ids.filter isValidExpert)⟩ := by
  induction ids generalizing weights i with
  | nil =>
    have hnil : weights = [] := List.length_eq_zero_iff.mp hlen
    subst hnil
    exact ⟨[], rfl⟩
  | cons e ids ih =>
    obtain ⟨w, weights, rfl⟩ := List.exists_cons_of_length_eq_add_one hlen
    obtain ⟨ws, hrest⟩ := ih (fun x hx => hlt x (by simp [hx])) (by simpa using hlen) (i + 1)
    rw [List.map_cons, List.zip_cons_cons, filterSlots]
    by_cases he : isValidExpert e = true
    · have hpos := (isValidExpert_iff.mp he).1
      have hbound := hlt e (by simp) he
      have hslot : slotLogit (z.map some) i e = .ok [z.getD e.toNat 0] := by
        rw [slotLogit, if_pos (by rw [List.length_map]; omega), pyFloat_getD_map_some (by omega)]
        rfl
      simp only [if_pos he, hslot, hrest, List.filter_cons_of_pos he]
      exact ⟨w.getD 0 :: ws, rfl⟩
    · rw [List.filter_cons_of_neg he]
      simp only [if_neg he]
      exact ⟨ws, hrest⟩

/-- The data of a layer whose valid ids all have a logit, in the line of a pass. -/
theorem convertRecord_valid (p : RecordedPass numExperts) {line : OutputRecord}
    (h : convertRecordToOutputFormat p.record = .ok line) {l : ℕ}
    (hlt : ∀ e ∈ p.firstIds l, isValidExpert e = true → e < numExperts)
    (hne : (p.firstIds l).filter isValidExpert ≠ []) :
    ∃ d, line.layers.get? (toString l) = some d ∧
      d.expertIds = (p.firstIds l).filter isValidExpert ∧
      d.logits = some (selectedLogits (p.firstLogits l) ((p.firstIds l).filter isValidExpert)) ∧
      d.nextExpertLogit =
        (excludedLogits (p.firstLogits l) ((p.firstIds l).filter isValidExpert)).max? := by
  have hids : p.firstIds l ≠ [] := fun h => hne (by rw [h]; rfl)
  have hlen := p.length_firstLogits hids
  obtain ⟨e, he⟩ := List.exists_mem_of_ne_nil _ hne
  have hz : p.firstLogits l ≠ [] := by
    have hmem := List.mem_filter.mp he
    have hpos := (isValidExpert_iff.mp hmem.2).1
    have hbound := hlt e hmem.1 hmem.2
    exact List.ne_nil_of_length_pos (by omega)
  obtain ⟨ws, hslots⟩ := filterSlots_valid (z := p.firstLogits l) (by rwa [hlen])
    (by rw [List.length_map, p.length_firstWeights] :
      ((p.firstWeights l).map some).length = (p.firstIds l).length) 0
  have hsel : selectedLogits (p.firstLogits l) ((p.firstIds l).filter isValidExpert) ≠ [] := by
    rw [selectedLogits]
    exact fun hnil => hne (List.map_eq_nil_iff.mp hnil)
  have hnext : nextExpertLogit ((p.firstLogits l).map some) ((p.firstIds l).filter isValidExpert) =
      .ok (excludedLogits (p.firstLogits l) ((p.firstIds l).filter isValidExpert)).max? := by
    rw [nextExpertLogit, if_neg (by simp [hz, hne]), unselectedLogits_full]
    rfl
  have hlayer : p.record.convertLayerAt l = .ok
      { expertIds := (p.firstIds l).filter isValidExpert
        weights := ws.map some
        logits := some (selectedLogits (p.firstLogits l) ((p.firstIds l).filter isValidExpert))
        nextExpertLogit :=
          (excludedLogits (p.firstLogits l) ((p.firstIds l).filter isValidExpert)).max? } := by
    rw [Record.convertLayerAt, convertLayer, firstRow_topkIds, firstRow_topkWeights,
      firstRow_routerLogits, hslots]
    simp only [bind, Except.bind, hnext, if_neg hsel]
  exact ⟨_, convertRecord_get? h hlayer hne, rfl, rfl, rfl⟩

/-! ## The analysis -/

theorem getD_toRows {α : Type} (layers : List (List (List α))) (l : ℕ) :
    (toRows layers).getD l [] = (layers.getD l []).map fun row => some (row.map some) := by
  rw [toRows, List.getD_eq_getElem?_getD, List.getElem?_map, List.getD_eq_getElem?_getD]
  cases layers[l]? <;> rfl

/-- The analysis counts the valid ids of all rows. -/
theorem totals_fst (p : RecordedPass numExperts) (l : ℕ) (e : ℤ) :
    (p.record.totals l e).1 = ((p.slots l).filter isValidExpert).count e := by
  rw [Record.totals, layerTotals, sum_rowTotals_fst]
  simp only [record, getD_toRows]
  rw [slots, List.flatMap_map, List.filter_flatten, ← List.flatMap_def]
  simp only [Option.getD_some, keptIds_map_some]

theorem none_notMem_getD_toRows {α : Type} (layers : List (List (List α))) (l j : ℕ) :
    none ∉ (((toRows layers).getD l []).getD j none).getD [] := by
  rw [getD_toRows, List.getD_eq_getElem?_getD, List.getElem?_map]
  cases (layers.getD l [])[j]? <;> simp

/-- The analysis of a recorded pass returns. -/
theorem rowsOk (p : RecordedPass numExperts) : p.record.RowsOk := by
  rintro ⟨rows, l⟩ hrows ⟨row, j⟩ hrow
  refine ⟨?_, fun _ s hs => ?_⟩
  · obtain ⟨idRows, -, rfl⟩ := List.mem_map.mp (List.fst_mem_of_mem_zipIdx hrows)
    obtain ⟨ids, -, rfl⟩ := List.mem_map.mp (List.fst_mem_of_mem_zipIdx hrow)
    simp
  · obtain ⟨slot, hslot, hkept⟩ := List.mem_filterMap.mp hs
    obtain ⟨e, -, rfl⟩ := Option.map_eq_some_iff.mp hkept
    exact fun hnone => none_notMem_getD_toRows _ l j (hnone ▸ (List.of_mem_zip hslot).2)

/-- The passes that the analysis does not skip. -/
def analysed (passes : List (RecordedPass numExperts)) (eosTokenIds : List ℤ) :
    List (RecordedPass numExperts) :=
  passes.filter fun p => !p.record.isSkipped eosTokenIds

/-- The analysis of recorded passes returns, with the number of valid slots of every expert. -/
theorem exists_analyzeExpertSelection (passes : List (RecordedPass numExperts)) (eosTokenIds : List ℤ) :
    ∃ stats totals,
      (analyzeExpertSelection (passes.map record) eosTokenIds).run ∅ = .ok stats totals ∧
      ∀ l e, totals.layerExpertCounts.at2 l e =
        ((analysed passes eosTokenIds).map fun p => ((p.slots l).filter isValidExpert).count e).sum := by
  have hok : ∀ r ∈ passes.map record, r.isSkipped eosTokenIds = false → r.RowsOk := by
    intro r hr _
    obtain ⟨p, -, rfl⟩ := List.mem_map.mp hr
    exact p.rowsOk
  obtain ⟨stats, totals, hrun, -⟩ :=
    (analyzeExpertSelection_adds 0 0 (passes.map record) eosTokenIds ∅).1 hok
  refine ⟨stats, totals, hrun, fun l e => ?_⟩
  obtain ⟨_, _, hrun', hadds⟩ :=
    (analyzeExpertSelection_adds l e (passes.map record) eosTokenIds ∅).1 hok
  rw [hrun] at hrun'
  cases hrun'
  have hcount := congrArg Prod.fst hadds
  have hempty : (ExpertTotals.of l e ∅).1 = 0 := rfl
  rw [Prod.fst_add, hempty, Nat.zero_add, List.filter_map, List.map_map] at hcount
  refine hcount.trans ((map_list_sum (AddMonoidHom.fst ℕ ℚ) _).trans ?_)
  rw [analysed, List.map_map]
  exact congrArg List.sum (List.map_congr_left fun p _ => p.totals_fst l e)

end RecordedPass

end MoeSpecialization.Pipeline
