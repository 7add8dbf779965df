import MoeSpecialization.Common.Tally
import MoeSpecialization.Postprocess.Analyze
import MoeSpecialization.Postprocess.Lines
import Mathlib.Algebra.BigOperators.Group.List.Lemmas
import Mathlib.Algebra.Group.Prod
import Mathlib.Algebra.Order.BigOperators.Group.List

/-!
# The two outputs of one run

Reference: `analyze_expert_selection` against `save_results_jsonl`.

The heatmap and the CSV file come from the dictionaries of `analyze_expert_selection`, every other metric
from scanning the lines of `results_all.jsonl`. Both read the same nested fields, by different rules:
the analysis reads all rows of a layer and weighs a row only if its weight row is as long; the conversion
reads the first row, up to the shorter of ids and weights, and takes a `null` weight for `0`.

`Comparable` is the condition on the records under which the two descriptions are the same.
-/

namespace MoeSpecialization.Postprocess

open Py

/-! ## What the analysis adds -/

section Analysis

variable (layer : ℕ) (expert : ℤ)

/-- The two numbers of an expert. -/
def ExpertTotals.of (t : ExpertTotals) : ℕ × ℚ :=
  (t.layerExpertCounts.at2 layer expert, t.layerExpertWeights.at2 layer expert)

/-- What the analysis needs of a row to return: no `null` id, and no `null` weight of a kept slot. -/
def RowOk (ids : List (Option ℤ)) (weights : List (Option ℚ)) : Prop :=
  none ∉ ids ∧ (weights.length = ids.length → ∀ s ∈ keptSlots (ids.zip weights), s.2 ≠ none)

/-- What the analysis adds for a row. -/
def rowTotals (ids : List (Option ℤ)) (weights : List (Option ℚ)) : ℕ × ℚ :=
  ((keptIds ids).count expert,
    if weights.length = ids.length then weightOf expert (keptSlots (ids.zip weights)) else 0)

/-- What the analysis adds for a layer. -/
def layerTotals (topkIds : LayerRows ℤ) (topkWeights : LayerRows ℚ) : ℕ × ℚ :=
  (topkIds.zipIdx.map fun p => rowTotals expert (p.1.getD []) ((topkWeights.getD p.2 none).getD [])).sum

theorem ExpertTotals.of_addCount (t : ExpertTotals) (layerIdx : ℕ) (e : ℤ) :
    (t.addCount layerIdx e).of layer expert =
      t.of layer expert + if layer = layerIdx then ([e].count expert, 0) else 0 := by
  simp only [ExpertTotals.of, ExpertTotals.addCount, PyDict.at2_addAt, List.count_singleton, beq_iff_eq]
  by_cases hl : layer = layerIdx <;> by_cases he : expert = e <;> simp [hl, he, eq_comm]

theorem ExpertTotals.of_addWeight (t : ExpertTotals) (layerIdx : ℕ) (e : ℤ) (w : ℚ) :
    (t.addWeight layerIdx e w).of layer expert =
      t.of layer expert + if layer = layerIdx then (0, weightOf expert [(e, some w)]) else 0 := by
  simp only [ExpertTotals.of, ExpertTotals.addWeight, PyDict.at2_addAt, weightOf]
  by_cases hl : layer = layerIdx <;> by_cases he : expert = e <;> simp [hl, he, eq_comm]

theorem countSlot_adds (layerIdx : ℕ) (id : Option ℤ) :
    PyM.Adds (ExpertTotals.of layer expert) (id ≠ none)
      (if layer = layerIdx then ((id.filter isValidExpert).toList.count expert, 0) else 0)
      (countSlot layerIdx id) := by
  cases id with
  | none => exact PyM.adds_throw (by simp) _
  | some e =>
    by_cases hv : isValidExpert e = true
    · simp only [countSlot, Option.filter, if_pos hv]
      exact PyM.adds_modify (by simp) fun t => t.of_addCount layer expert layerIdx e
    · simp only [countSlot, Option.filter, if_neg hv]
      exact PyM.adds_pure (by simp) (by split <;> rfl) _

theorem weighSlot_adds (layerIdx : ℕ) (slot : Option ℤ × Option ℚ) :
    PyM.Adds (ExpertTotals.of layer expert)
      (slot.1 ≠ none ∧ ∀ s ∈ keptSlots [slot], s.2 ≠ none)
      (if layer = layerIdx then (0, weightOf expert (keptSlots [slot])) else 0)
      (weighSlot layerIdx slot) := by
  obtain ⟨id, w⟩ := slot
  cases id with
  | none => exact PyM.adds_throw (by simp) _
  | some e =>
    by_cases hv : isValidExpert e = true
    · simp only [weighSlot, keptSlots_cons, Option.filter, if_pos hv]
      cases w with
      | none => exact PyM.adds_throw (by simp) _
      | some w => exact PyM.adds_modify (by simp) fun t => t.of_addWeight layer expert layerIdx e w
    · simp only [weighSlot, keptSlots_cons, Option.filter, if_neg hv]
      exact PyM.adds_pure (by simp) (by simp) _

/-- A sum of amounts that all go to one layer. -/
theorem sum_map_ite {α : Type} (p : Prop) [Decidable p] (f : α → ℕ × ℚ) (xs : List α) :
    (xs.map fun x => if p then f x else 0).sum = if p then (xs.map f).sum else 0 := by
  split <;> simp

theorem sum_map_count (ids : List (Option ℤ)) :
    (ids.map fun id => (((id.filter isValidExpert).toList.count expert, 0) : ℕ × ℚ)).sum =
      ((keptIds ids).count expert, 0) := by
  induction ids with
  | nil => rfl
  | cons id ids ih => rw [List.map_cons, List.sum_cons, ih, keptIds_cons, List.count_append]; simp

theorem sum_map_weightOf (slots : List (Option ℤ × Option ℚ)) :
    (slots.map fun s => ((0, weightOf expert (keptSlots [s])) : ℕ × ℚ)).sum =
      (0, weightOf expert (keptSlots slots)) := by
  induction slots with
  | nil => rfl
  | cons s slots ih =>
    rw [List.map_cons, List.sum_cons, ih, keptSlots_cons, keptSlots_cons s slots, weightOf_append,
      weightOf_append]
    simp

theorem analyzeRow_adds (layerIdx : ℕ) (ids : Row ℤ) (weights : Row ℚ) :
    PyM.Adds (ExpertTotals.of layer expert) (RowOk (ids.getD []) (weights.getD []))
      (if layer = layerIdx then rowTotals expert (ids.getD []) (weights.getD []) else 0)
      (analyzeRow layerIdx ids weights) := by
  rw [analyzeRow_eq]
  generalize ids.getD [] = ids
  generalize weights.getD [] = weights
  have hcount := PyM.adds_forM (countSlot_adds layer expert layerIdx) ids
  have hweigh := PyM.adds_forM (weighSlot_adds layer expert layerIdx) (ids.zip weights)
  rw [sum_map_ite, sum_map_count] at hcount
  rw [sum_map_ite, sum_map_weightOf] at hweigh
  have hnone : (∀ id ∈ ids, id ≠ none) ↔ none ∉ ids :=
    ⟨fun h hmem => h none hmem rfl, fun h id hid hnone => h (hnone ▸ hid)⟩
  by_cases hlen : weights.length = ids.length
  · simp only [RowOk, rowTotals, hlen, forall_const]
    refine (PyM.adds_bind hcount fun _ => hweigh).congr ?_ fun _ => by split <;> simp
    rw [hnone]
    refine and_congr_right fun hids => ?_
    constructor
    · intro h s hs
      obtain ⟨slot, hslot, hkept⟩ := List.mem_filterMap.mp hs
      exact (h slot hslot).2 s (List.mem_filterMap.mpr ⟨slot, by simp, hkept⟩)
    · intro h slot hslot
      refine ⟨hnone.mpr hids _ (List.of_mem_zip hslot).1, fun s hs => h s ?_⟩
      obtain ⟨slot', hslot', hkept⟩ := List.mem_filterMap.mp hs
      rw [List.mem_singleton.mp hslot'] at hkept
      exact List.mem_filterMap.mpr ⟨slot, hslot, hkept⟩
  · simp only [RowOk, rowTotals, hlen, false_implies, and_true]
    refine (PyM.adds_bind hcount fun _ => PyM.adds_pure trivial rfl ()).congr ?_ fun _ => by simp
    rw [hnone, and_true]

theorem analyzeLayer_adds (layerIdx : ℕ) (ids : LayerRows ℤ) (weights : LayerRows ℚ) :
    PyM.Adds (ExpertTotals.of layer expert)
      (∀ p ∈ ids.zipIdx, RowOk (p.1.getD []) ((weights.getD p.2 none).getD []))
      (if layer = layerIdx then layerTotals expert ids weights else 0)
      (analyzeLayer layerIdx ids weights) := by
  refine (PyM.adds_forM (fun p => analyzeRow_adds layer expert layerIdx p.1 _) ids.zipIdx).congr
    Iff.rfl fun _ => ?_
  rw [sum_map_ite]
  rfl

/-- Of a sum over all layers, the amount of one layer. -/
theorem sum_map_zipIdx {α : Type} (f : α → ℕ × ℚ) (xs : List α) (n : ℕ) :
    ((xs.zipIdx n).map fun p => if layer = p.2 then f p.1 else 0).sum =
      if n ≤ layer then (xs[layer - n]?.map f).getD 0 else 0 := by
  induction xs generalizing n with
  | nil => simp
  | cons x xs ih =>
    rw [List.zipIdx_cons, List.map_cons, List.sum_cons, ih]
    rcases Nat.lt_trichotomy layer n with hlt | rfl | hlt
    · simp [show ¬ n ≤ layer by omega, show ¬ n + 1 ≤ layer by omega, hlt.ne]
    · simp
    · rw [if_neg hlt.ne', if_pos (Nat.succ_le_of_lt hlt), if_pos hlt.le, zero_add,
        show layer - n = layer - (n + 1) + 1 by omega, List.getElem?_cons_succ]

/-- What the analysis needs of a record to return. -/
def Record.RowsOk (record : Record) : Prop :=
  ∀ p ∈ record.topkIdsOfLayer.zipIdx, ∀ q ∈ p.1.zipIdx,
    RowOk (q.1.getD []) (((record.topkWeightsOfLayer.getD p.2 []).getD q.2 none).getD [])

/-- What the analysis adds for a record. -/
def Record.totals (record : Record) : ℕ × ℚ :=
  layerTotals expert (record.topkIdsOfLayer.getD layer []) (record.topkWeightsOfLayer.getD layer [])

theorem analyzeRecord_adds (eosTokenIds : List ℤ) (stats : Stats) (record : Record) :
    PyM.Adds (ExpertTotals.of layer expert) (record.isSkipped eosTokenIds = false → record.RowsOk)
      (if record.isSkipped eosTokenIds then 0 else record.totals layer expert)
      (analyzeRecord eosTokenIds stats record) := by
  unfold analyzeRecord
  by_cases hskip : record.isSkipped eosTokenIds = true
  · simp only [if_pos hskip]
    exact PyM.adds_pure (by simp [hskip]) rfl _
  · simp only [if_neg hskip]
    have hlayers := PyM.adds_forM (fun p : LayerRows ℤ × ℕ =>
      analyzeLayer_adds layer expert p.2 p.1 (record.topkWeightsOfLayer.getD p.2 []))
      record.topkIdsOfLayer.zipIdx
    refine (PyM.adds_bind hlayers fun _ => PyM.adds_pure trivial rfl _).congr ?_ fun _ => ?_
    · simp [hskip, Record.RowsOk]
    · have hsum := sum_map_zipIdx layer (fun ids => layerTotals expert ids
        (record.topkWeightsOfLayer.getD layer [])) record.topkIdsOfLayer 0
      -- under the test, the weights of layer `p.2` are those of `layer`
      have hcongr : ∀ p : LayerRows ℤ × ℕ,
          (if layer = p.2 then layerTotals expert p.1 (record.topkWeightsOfLayer.getD p.2 []) else 0) =
            if layer = p.2 then layerTotals expert p.1 (record.topkWeightsOfLayer.getD layer [])
            else 0 := by
        intro p
        split
        · rename_i hp
          rw [hp]
        · rfl
      rw [add_zero, funext hcongr, hsum, if_pos (Nat.zero_le _), Nat.sub_zero, Record.totals,
        List.getD_eq_getElem?_getD (l := record.topkIdsOfLayer)]
      cases record.topkIdsOfLayer[layer]? with
      | none => rfl
      | some ids => rfl

/-- What `analyze_expert_selection` returns, and when. -/
theorem analyzeExpertSelection_adds (records : List Record) (eosTokenIds : List ℤ) :
    PyM.Adds (ExpertTotals.of layer expert)
      (∀ record ∈ records, record.isSkipped eosTokenIds = false → record.RowsOk)
      ((records.filter (!·.isSkipped eosTokenIds)).map (·.totals layer expert)).sum
      (analyzeExpertSelection records eosTokenIds) := by
  refine (PyM.adds_foldlM (analyzeRecord_adds layer expert eosTokenIds) records 0).congr Iff.rfl
    fun _ => ?_
  clear * -
  induction records with
  | nil => rfl
  | cons record records ih =>
    rw [List.map_cons, List.sum_cons, ih, List.filter_cons]
    cases record.isSkipped eosTokenIds <;> simp

end Analysis

/-! ## What the lines add up to -/

/-- The slot totals of the first row of a layer. -/
def Record.keptTotals (layer : ℕ) (expert : ℤ) (record : Record) : ℕ × ℚ :=
  (((record.kept layer).map Prod.fst).count expert, weightOf expert (record.kept layer))

theorem firstRow_eq {α : Type} (rows : LayerRows α) : firstRow rows = (rows.getD 0 none).getD [] := by
  match rows with
  | [] | none :: _ | some _ :: _ => rfl

/-- The valid experts that only the analysis sees: in the slots of the first row past the end of its
weights, and in all later rows. -/
def Record.unconverted (record : Record) (layer : ℕ) : List ℤ :=
  keptIds ((firstRow (record.topkIdsOfLayer.getD layer [])).drop
      (firstRow (record.topkWeightsOfLayer.getD layer [])).length) ++
    (record.topkIdsOfLayer.getD layer []).tail.flatMap fun row => keptIds (row.getD [])

/-- The weight that only the conversion sees: that of a first row with a weight row of another
length. -/
def Record.unweighed (layer : ℕ) (expert : ℤ) (record : Record) : ℚ :=
  if (firstRow (record.topkWeightsOfLayer.getD layer [])).length =
      (firstRow (record.topkIdsOfLayer.getD layer [])).length then 0
  else weightOf expert (record.kept layer)

theorem sum_rowTotals_fst (expert : ℤ) (rows : LayerRows ℤ) (weights : LayerRows ℚ) (n : ℕ) :
    ((rows.zipIdx n).map fun p =>
        rowTotals expert (p.1.getD []) ((weights.getD p.2 none).getD [])).sum.1 =
      (rows.flatMap fun row => keptIds (row.getD [])).count expert := by
  induction rows generalizing n with
  | nil => rfl
  | cons row rows ih =>
    rw [List.zipIdx_cons, List.map_cons, List.sum_cons, Prod.fst_add, ih, List.flatMap_cons,
      List.count_append]
    rfl

/-- The counts of the analysis are those of the lines and of what is not converted. -/
theorem Record.totals_fst (record : Record) (layer : ℕ) (expert : ℤ) :
    (record.totals layer expert).1 =
      (record.keptTotals layer expert).1 + (record.unconverted layer).count expert := by
  rw [Record.totals, layerTotals, Record.keptTotals, Record.kept, map_fst_keptSlots_zip,
    Record.unconverted]
  generalize record.topkIdsOfLayer.getD layer [] = rows
  generalize record.topkWeightsOfLayer.getD layer [] = weights
  rw [sum_rowTotals_fst]
  have hsplit := keptIds_append ((firstRow rows).take (firstRow weights).length)
    ((firstRow rows).drop (firstRow weights).length)
  rw [List.take_append_drop] at hsplit
  rw [List.count_append, ← Nat.add_assoc, ← List.count_append, ← hsplit, ← List.count_append]
  cases rows with
  | nil => rfl
  | cons row rows => rw [firstRow_eq]; rfl

/-- The condition on the records under which the two outputs describe the same data. -/
structure Comparable (records : List Record) (eosTokenIds : List ℤ) : Prop where
  /-- No layer with a kept slot has a `null` logit. -/
  logits : ∀ record ∈ records, record.LogitsOk
  /-- No row has a `null` id, or a `null` weight beside a valid id. -/
  rows : ∀ record ∈ records, record.isSkipped eosTokenIds = false → record.RowsOk
  /-- Valid ids stand in the first row only, and have a weight there. -/
  converted : ∀ record ∈ records, record.isSkipped eosTokenIds = false →
    ∀ layer, record.unconverted layer = []
  /-- The weights in first rows whose weight row has another length cancel. -/
  weighed : ∀ layer expert,
    ((records.filter (!·.isSkipped eosTokenIds)).map (·.unweighed layer expert)).sum = 0

end MoeSpecialization.Postprocess
