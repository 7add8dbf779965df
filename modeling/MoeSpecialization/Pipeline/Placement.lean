import MoeSpecialization.Pipeline.RecordedPass

/-!
# Physical ids and logical experts

Reference: `_DetailAccumulator.dump` in `sglang/srt/eplb/expert_distribution.py`,
`topk_ids_logical_to_physical` in `sglang/srt/eplb/expert_location_dispatch.py`, and the readers of the
dump in `metric/postprocess/postprocessing_for_image_and_count.py`.

The router selects logical experts and the dispatch replaces them by physical ones before they are
recorded, while the logits stay those of the logical experts. A dump has the map back. The postprocessor
loads the map and takes the physical ids for logical ones, so what it writes is right if and only if the
map fixes every id that it keeps.
-/

namespace MoeSpecialization.Pipeline

open Py Postprocess Metrics RecordedPass

/-- A dump: recorded passes whose ids are `-1` or physical experts of their layer, and the map to the
logical experts. -/
structure PlacedDump (numExperts : ℕ) where
  physicalToLogicalMap : List (List ℕ)
  passes : List (RecordedPass numExperts)
  logical_lt : ∀ row ∈ physicalToLogicalMap, ∀ e ∈ row, e < numExperts
  placed : ∀ p ∈ passes, ∀ l, ∀ id ∈ p.slots l,
    id = -1 ∨ 0 ≤ id ∧ id < (physicalToLogicalMap.getD l []).length

namespace PlacedDump

variable {numExperts : ℕ} (d : PlacedDump numExperts)

/-- The dump as the postprocessor loads it. -/
def expertData : ExpertData where
  records := d.passes.map record
  lastPhysicalToLogicalMap := d.physicalToLogicalMap

/-- The logical expert of a physical id. -/
def logical (l : ℕ) (id : ℤ) : ℤ := ((d.physicalToLogicalMap.getD l []).getD id.toNat 0 : ℕ)

/-- The line of a pass has the logical experts of the ids that it keeps, and their logits. -/
def WritesLogical (p : RecordedPass numExperts) : Prop :=
  ∃ line, convertRecordToOutputFormat p.record = .ok line ∧ ∀ l,
    let layerData := (line.layers.get? (toString l)).getD {}
    let kept := (p.firstIds l).filter isValidExpert
    layerData.expertIds = kept.map (d.logical l) ∧
    (kept ≠ [] → layerData.logits = some (selectedLogits (p.firstLogits l) (kept.map (d.logical l))))

/-- Every slot that is counted adds one to the count of its logical expert, so that the counts of the
analysis are those of the logical experts. -/
def CountsLogical (eosTokenIds : List ℤ) : Prop :=
  (∀ p ∈ analysed d.passes eosTokenIds, ∀ l, ∀ id ∈ p.slots l, isValidExpert id = true →
    ∀ t, (countSlot l (some id)).run t = .ok () (t.addCount l (d.logical l id))) ∧
  ∃ stats totals, (analyzeExpertSelection d.expertData.records eosTokenIds).run ∅ = .ok stats totals ∧
    ∀ l e, totals.layerExpertCounts.at2 l e = ((analysed d.passes eosTokenIds).map fun p =>
      (((p.slots l).filter isValidExpert).map (d.logical l)).count e).sum

/-- The map fixes the ids of a list that pass the filter. -/
def Fixes (l : ℕ) (ids : List ℤ) : Prop := ∀ id ∈ ids, isValidExpert id = true → d.logical l id = id

variable {d}

theorem fixes_iff {l : ℕ} {ids : List ℤ} :
    d.Fixes l ids ↔ (ids.filter isValidExpert).map (d.logical l) = ids.filter isValidExpert := by
  have hid := List.map_inj_left (l := ids.filter isValidExpert) (f := d.logical l) (g := id)
  rw [List.map_id] at hid
  rw [hid]
  simp [Fixes, List.mem_filter]

/-- An id of the first row of a layer is one of its slots. -/
theorem mem_slots_of_mem_firstIds {p : RecordedPass numExperts} {l : ℕ} {id : ℤ}
    (h : id ∈ p.firstIds l) : id ∈ p.slots l := by
  rw [firstIds] at h
  rw [slots]
  cases hrows : p.topkIds.getD l [] with
  | nil =>
    rw [hrows] at h
    cases h
  | cons row rows =>
    rw [hrows] at h
    exact List.mem_flatten.mpr ⟨row, by simp, h⟩

/-- A fixed id is that of a logical expert. -/
theorem lt_of_logical_eq {p : RecordedPass numExperts} (hp : p ∈ d.passes) {l : ℕ} {id : ℤ}
    (hid : id ∈ p.slots l) (hv : isValidExpert id = true) (hfix : d.logical l id = id) :
    id < numExperts := by
  have hpos := (isValidExpert_iff.mp hv).1
  have hlt : id.toNat < (d.physicalToLogicalMap.getD l []).length := by
    rcases d.placed p hp l id hid with h | h <;> omega
  have hentry : d.logical l id = ((d.physicalToLogicalMap.getD l [])[id.toNat] : ℕ) := by
    rw [logical, List.getD_eq_getElem?_getD, List.getElem?_eq_getElem hlt]
    rfl
  have hrow : d.physicalToLogicalMap.getD l [] ∈ d.physicalToLogicalMap := by
    rw [List.getD_eq_getElem?_getD] at hlt ⊢
    cases hget : d.physicalToLogicalMap[l]? with
    | none =>
      rw [hget] at hlt
      cases hlt
    | some row => exact List.mem_of_getElem? hget
  have := d.logical_lt _ hrow _ (List.getElem_mem hlt)
  omega

theorem writesLogical_iff {p : RecordedPass numExperts} (hp : p ∈ d.passes) :
    d.WritesLogical p ↔ ∀ l, d.Fixes l (p.firstIds l) := by
  obtain ⟨line, hline⟩ := p.exists_convertRecord
  have hids : ∀ l, ((line.layers.get? (toString l)).getD {}).expertIds =
      (p.firstIds l).filter isValidExpert := fun l =>
    (convertRecord_layer hline l).1.trans (p.map_fst_kept l)
  simp only [fixes_iff]
  constructor
  · rintro ⟨line', hline', h⟩ l
    rw [hline] at hline'
    cases hline'
    exact (h l).1.symm.trans (hids l)
  · intro h
    refine ⟨line, hline, fun l => ⟨(hids l).trans (h l).symm, fun hne => ?_⟩⟩
    have hlt : ∀ e ∈ p.firstIds l, isValidExpert e = true → e < numExperts := fun e he hv =>
      lt_of_logical_eq hp (mem_slots_of_mem_firstIds he) hv (fixes_iff.mpr (h l) e he hv)
    obtain ⟨layerData, hget, -, hlogits, -⟩ := p.convertRecord_valid hline hlt hne
    rw [hget, Option.getD_some, hlogits, h l]

theorem countsLogical_iff (eosTokenIds : List ℤ) :
    d.CountsLogical eosTokenIds ↔
      ∀ p ∈ analysed d.passes eosTokenIds, ∀ l, d.Fixes l (p.slots l) := by
  constructor
  · rintro ⟨hslots, -⟩ p hp l id hid hv
    have hrun := hslots p hp l id hid hv ∅
    rw [countSlot, if_pos hv] at hrun
    -- both sides add one to the empty count, the left one at the id
    have hfinal : (∅ : ExpertTotals).addCount l id = (∅ : ExpertTotals).addCount l (d.logical l id) :=
      (EStateM.Result.ok.inj hrun).2
    have hcount := congrArg (fun t => t.layerExpertCounts.at2 l id) hfinal
    simpa [ExpertTotals.addCount, PyDict.at2_addAt, eq_comm] using hcount
  · intro h
    refine ⟨fun p hp l id hid hv t => ?_, ?_⟩
    · rw [h p hp l id hid hv, countSlot, if_pos hv]
      rfl
    · obtain ⟨stats, totals, hrun, hcounts⟩ := exists_analyzeExpertSelection d.passes eosTokenIds
      refine ⟨stats, totals, hrun, fun l e => (hcounts l e).trans ?_⟩
      refine congrArg List.sum (List.map_congr_left fun p hp => ?_)
      rw [fixes_iff.mp (h p hp l)]

/-- **Physical ids stand for logical experts.** The lines and the counts of a dump are those of the logical
experts of the recorded ids, and the logits those of the same experts, if and only if the map fixes the
valid ids of every first row, and all valid ids of the passes that are analysed. -/
theorem logical_identity_iff (d : PlacedDump numExperts) (eosTokenIds : List ℤ) :
    ((∀ p ∈ d.passes, d.WritesLogical p) ∧ d.CountsLogical eosTokenIds) ↔
      (∀ p ∈ d.passes, ∀ l, d.Fixes l (p.firstIds l)) ∧
        ∀ p ∈ analysed d.passes eosTokenIds, ∀ l, d.Fixes l (p.slots l) := by
  rw [countsLogical_iff]
  exact and_congr_left fun _ => forall₂_congr fun p hp => writesLogical_iff hp

/-- A token that is recorded with the physical expert 0. -/
def physicalPass : RecordedPass 2 where
  topkIds := [[[0]]]
  topkWeights := [[[7/12]]]
  routerLogits := [[[5, 7]]]
  weights_shape := rfl
  logits_shape := rfl

theorem eq_zero_of_mem_slots {l : ℕ} {id : ℤ} (h : id ∈ physicalPass.slots l) : l = 0 ∧ id = 0 := by
  cases l with
  | zero => exact ⟨rfl, List.mem_singleton.mp h⟩
  | succ l => cases h

/-- Two experts in exchanged places: the token was routed to the logical expert 1. -/
def swappedDump : PlacedDump 2 where
  physicalToLogicalMap := [[1, 0]]
  passes := [physicalPass]
  logical_lt := by decide
  placed := by
    intro p hp l id hid
    rw [List.mem_singleton.mp hp] at hid
    obtain ⟨rfl, rfl⟩ := eq_zero_of_mem_slots hid
    decide

/-- The line has the expert 0 and its logit. -/
theorem physical_id_written :
    ¬((∀ p ∈ swappedDump.passes, swappedDump.WritesLogical p) ∧ swappedDump.CountsLogical []) := by
  rintro ⟨hlines, -⟩
  have h := (writesLogical_iff (List.mem_singleton.mpr rfl)).mp (hlines _ (List.mem_singleton.mpr rfl)) 0 0
    (by decide) (by decide)
  exact absurd h (by decide)

end PlacedDump

end MoeSpecialization.Pipeline
