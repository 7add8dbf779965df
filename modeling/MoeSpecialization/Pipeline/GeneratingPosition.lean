import MoeSpecialization.Pipeline.RecordedPass
import MoeSpecialization.Postprocess.LogitPairing
import MoeSpecialization.Recorder.Collect

/-!
# The position that generates a token

Reference: `convert_record_to_output_format` against `_DetailSinglePassGatherer.collect`.

A pass over `m` input positions of a request produces one token, from the hidden state of its last
position, and the recorder writes a row for every position. The conversion reduces a record to one token
by its first row, on the assumption of its comment that there is only one. For a prefill of more than one
position these are the experts of the first token of the prompt (`generating_position_iff`).
-/

namespace MoeSpecialization.Pipeline

open Py Recorder Postprocess

/-! ## The rows of a record -/

/-- Row `t` of layer `l`, empty if there is none or it is `null`. -/
def rowAt {α : Type} (layers : List (LayerRows α)) (l t : ℕ) : List (Option α) :=
  ((layers.getD l []).getD t none).getD []

/-- The record reduced to one position: every layer has row `t` alone. -/
def onlyRow (record : Record) (t : ℕ) : Record :=
  { record with
    topkIdsOfLayer := record.topkIdsOfLayer.map fun rows => [rows.getD t none]
    topkWeightsOfLayer := record.topkWeightsOfLayer.map fun rows => [rows.getD t none]
    routerLogitsOfLayer := record.routerLogitsOfLayer.map fun rows => [rows.getD t none] }

/-- The line of the record has, on every layer, the ids, weights and logits that the conversion stores
for position `t`. -/
def StoresPosition (record : Record) (t : ℕ) : Prop :=
  ∃ line line', convertRecordToOutputFormat record = .ok line ∧
    convertRecordToOutputFormat (onlyRow record t) = .ok line' ∧ ∀ l : ℕ,
      let d := (line.layers.get? (toString l)).getD {}
      let d' := (line'.layers.get? (toString l)).getD {}
      d.expertIds = d'.expertIds ∧ d.weights = d'.weights ∧ d.logits = d'.logits

/-- The slots of position `t` with a valid expert. -/
def slotsAt (record : Record) (l t : ℕ) : List KeptSlot :=
  keptSlotsFrom 0 ((rowAt record.topkIdsOfLayer l t).zip (rowAt record.topkWeightsOfLayer l t))

/-- The logits that are read for the slots of position `t`. -/
def logitsAt (record : Record) (l t : ℕ) : List ℚ :=
  (slotsAt record l t).filterMap (storedLogit (rowAt record.routerLogitsOfLayer l t))

/-- Two positions are routed alike: on every layer their slots with a valid expert have the same experts
and weights, and the same logits. -/
def RoutedAlike (record : Record) (t t' : ℕ) : Prop :=
  ∀ l, (slotsAt record l t).map (fun s => (s.expertId, s.weight.getD 0)) =
      (slotsAt record l t').map (fun s => (s.expertId, s.weight.getD 0)) ∧
    logitsAt record l t = logitsAt record l t'

theorem firstRow_eq_rowAt {α : Type} (layers : List (LayerRows α)) (l : ℕ) :
    firstRow (layers.getD l []) = rowAt layers l 0 := by
  unfold rowAt
  cases layers.getD l [] with
  | nil => rfl
  | cons row rows => cases row <;> rfl

theorem firstRow_onlyRow {α : Type} (layers : List (LayerRows α)) (l t : ℕ) :
    firstRow ((layers.map fun rows => [rows.getD t none]).getD l []) = rowAt layers l t := by
  unfold rowAt
  rw [List.getD_eq_getElem?_getD, List.getElem?_map, List.getD_eq_getElem?_getD (l := layers)]
  cases layers[l]? with
  | none => simp [firstRow]
  | some rows =>
    simp only [Option.map_some, Option.getD_some]
    cases rows.getD t none <;> rfl

/-! ## What a line stores -/

theorem keptSlotsAt_eq (record : Record) (l : ℕ) : record.keptSlotsAt l = slotsAt record l 0 := by
  rw [Record.keptSlotsAt, slotsAt, firstRow_eq_rowAt, firstRow_eq_rowAt]

theorem keptSlotsAt_onlyRow (record : Record) (l t : ℕ) :
    (onlyRow record t).keptSlotsAt l = slotsAt record l t := by
  rw [Record.keptSlotsAt, slotsAt, onlyRow, firstRow_onlyRow, firstRow_onlyRow]

theorem logitRow_eq (record : Record) (l : ℕ) :
    record.logitRow l = rowAt record.routerLogitsOfLayer l 0 := firstRow_eq_rowAt _ l

theorem logitRow_onlyRow (record : Record) (l t : ℕ) :
    (onlyRow record t).logitRow l = rowAt record.routerLogitsOfLayer l t := firstRow_onlyRow _ l t

theorem nonemptyList_inj {xs ys : List ℚ} : nonemptyList xs = nonemptyList ys ↔ xs = ys := by
  refine ⟨fun h => ?_, fun h => by rw [h]⟩
  rw [← getD_nonemptyList xs, ← getD_nonemptyList ys, h]

/-- Lists of experts and weights that agree are lists of pairs that agree. -/
theorem map_pair_eq_iff {xs ys : List KeptSlot} :
    xs.map (fun s => (s.expertId, s.weight.getD 0)) = ys.map (fun s => (s.expertId, s.weight.getD 0)) ↔
      xs.map (·.expertId) = ys.map (·.expertId) ∧
        xs.map (fun s => some (s.weight.getD 0)) = ys.map fun s => some (s.weight.getD 0) := by
  constructor
  · intro h
    constructor
    · simpa [Function.comp_def] using congrArg (List.map Prod.fst) h
    · simpa [Function.comp_def] using congrArg (List.map fun p => some p.2) h
  · rintro ⟨hids, hweights⟩
    have hzip := congrArg₂ List.zip hids hweights
    rw [List.zip_map', List.zip_map'] at hzip
    simpa [Function.comp_def] using congrArg (List.map fun p => (p.1, p.2.getD 0)) hzip

/-- A record whose rows have no `null` logits stores position `t` exactly if its first row is routed like
that position. -/
theorem storesPosition_iff {record : Record} {t : ℕ}
    (hlogits : ∀ l t, none ∉ rowAt record.routerLogitsOfLayer l t) :
    StoresPosition record t ↔ RoutedAlike record 0 t := by
  obtain ⟨line, hline⟩ := (exists_convertRecord_iff record).mpr fun l => .inr (by
    rw [firstRow_eq_rowAt]
    exact hlogits l 0)
  obtain ⟨line', hline'⟩ := (exists_convertRecord_iff (onlyRow record t)).mpr fun l => .inr (by
    rw [onlyRow, firstRow_onlyRow]
    exact hlogits l t)
  have hlayer : ∀ l,
      (((line.layers.get? (toString l)).getD {}).expertIds =
          ((line'.layers.get? (toString l)).getD {}).expertIds ∧
        ((line.layers.get? (toString l)).getD {}).weights =
          ((line'.layers.get? (toString l)).getD {}).weights ∧
        ((line.layers.get? (toString l)).getD {}).logits =
          ((line'.layers.get? (toString l)).getD {}).logits) ↔
      ((slotsAt record l 0).map (fun s => (s.expertId, s.weight.getD 0)) =
          (slotsAt record l t).map (fun s => (s.expertId, s.weight.getD 0)) ∧
        logitsAt record l 0 = logitsAt record l t) := by
    intro l
    obtain ⟨hids, hweights, hstored⟩ := convertRecord_stored hline l
    obtain ⟨hids', hweights', hstored'⟩ := convertRecord_stored hline' l
    rw [hids, hweights, hstored, hids', hweights', hstored', keptSlotsAt_eq, keptSlotsAt_onlyRow,
      logitRow_eq, logitRow_onlyRow, nonemptyList_inj, map_pair_eq_iff, and_assoc]
    rfl
  constructor
  · rintro ⟨line₁, line₂, hline₁, hline₂, hsame⟩ l
    rw [hline] at hline₁
    rw [hline'] at hline₂
    cases hline₁
    cases hline₂
    exact (hlayer l).mp (hsame l)
  · intro h
    exact ⟨line, line', hline, hline', fun l => (hlayer l).mpr (h l)⟩

/-! ## Recorded passes -/

/-- The record of a pass, paired with a token by the alignment. -/
def alignedPass (info : TokenInfo) (tokenizer : Option Tokenizer) (tokenIndex : ℕ) (tokenId : ℤ)
    (r : PassRecord) : Record := alignRecord info tokenizer tokenIndex tokenId (toRecord r)

/-- **The generating position.** In every state that a run of the recorder reaches, the record of a pass
over `m` positions has a row for every position that the buffers hold, on every layer. Whatever token
it is paired with, its line stores the ids, weights and logits of position `m - 1` if and only if `m = 1`
or that position is routed like position `0`. -/
theorem generating_position_iff (cfg : RecorderConfig) (ops : List Op) (pass : Pass) {r : PassRecord}
    (hrecord : (step cfg (run cfg (.init cfg) ops).1 (.forwardPass pass)).1.records =
      (run cfg (.init cfg) ops).1.records ++ [r]) :
    (HasRows cfg.numLayers (min pass.batch.inputIds.length cfg.bufferRows) r.topkIdsOfLayer ∧
      HasRows cfg.numLayers (min pass.batch.inputIds.length cfg.bufferRows) r.topkWeightsOfLayer ∧
      HasRows cfg.numLayers (min pass.batch.inputIds.length cfg.bufferRows) r.routerLogitsOfLayer) ∧
    ∀ (info : TokenInfo) (tokenizer : Option Tokenizer) (tokenIndex : ℕ) (tokenId : ℤ),
      StoresPosition (alignedPass info tokenizer tokenIndex tokenId r)
          (pass.batch.inputIds.length - 1) ↔
        pass.batch.inputIds.length = 1 ∨
          RoutedAlike (alignedPass info tokenizer tokenIndex tokenId r) 0
            (pass.batch.inputIds.length - 1) := by
  have hready := run_ready (ready_init cfg) ops
  generalize (run cfg (.init cfg) ops).1 = s at hready hrecord
  obtain ⟨hon, hcollect⟩ := collect_of_records_step hready hrecord
  have hshaped := bodyEnd_shaped pass hready
  obtain ⟨hids, hlogits, hweights, -⟩ := collect_eq_ok (bodyEnd_metadata hon) hcollect
  refine ⟨⟨?_, ?_, ?_⟩, fun info tokenizer tokenIndex tokenId => ?_⟩
  · rw [hids, ← hshaped.ids_dim0, ← hshaped.ids_dim1]
    exact ⟨Tensor3.length_takeRows _ _, fun _ => Tensor3.length_of_mem_takeRows⟩
  · rw [hweights, ← hshaped.weights_dim0, ← hshaped.weights_dim1]
    exact ⟨Tensor3.length_takeRows _ _, fun _ => Tensor3.length_of_mem_takeRows⟩
  · rw [hlogits, ← hshaped.logits_dim0, ← hshaped.logits_dim1]
    exact ⟨Tensor3.length_takeRows _ _, fun _ => Tensor3.length_of_mem_takeRows⟩
  · have hnone : ∀ l t, none ∉
        rowAt (alignedPass info tokenizer tokenIndex tokenId r).routerLogitsOfLayer l t :=
      fun l t => RecordedPass.none_notMem_getD_toRows r.routerLogitsOfLayer l t
    rw [storesPosition_iff hnone]
    refine ⟨.inr, fun h => h.elim (fun hone => ?_) id⟩
    rw [hone]
    exact fun l => ⟨rfl, rfl⟩

/-- A pass over the given tokens in which token `t` is routed to expert `t` on layer 0. -/
def diagonalPass (inputIds : List ℤ) : Pass where
  forwardPassId := 1
  batch := { inputIds }
  blocks := [.layer 0 [.selectExperts ⟨inputIds.length, 1, fun t _ => t⟩ none
    (some ⟨inputIds.length, 1, fun _ _ => 1⟩) false]]

theorem generating_position_iff_sample :
    ∃ r, (step sampleConfig (run sampleConfig (.init sampleConfig) [.startRecord]).1
        (.forwardPass (diagonalPass [7]))).1.records = [r] ∧
      StoresPosition (alignedPass ⟨[5], [(0, 1)], []⟩ none 0 5 r) 0 := by
  obtain ⟨r, hr⟩ : ∃ r, (step sampleConfig (run sampleConfig (.init sampleConfig) [.startRecord]).1
      (.forwardPass (diagonalPass [7]))).1.records = [r] := ⟨_, rfl⟩
  have hiff := (generating_position_iff sampleConfig [.startRecord] (diagonalPass [7]) hr).2
  exact ⟨r, hr, (hiff ⟨[5], [(0, 1)], []⟩ none 0 5).mpr (.inl rfl)⟩

/-- A prefill of two positions: the line has the expert of the first, not that of the last. -/
theorem prefill_stores_first_position :
    ∃ r, (step sampleConfig (run sampleConfig (.init sampleConfig) [.startRecord]).1
        (.forwardPass (diagonalPass [7, 8]))).1.records = [r] ∧
      ¬StoresPosition (alignedPass ⟨[5], [(0, 1)], []⟩ none 0 5 r) 1 := by
  refine ⟨_, rfl, ?_⟩
  rintro ⟨line, line', hline, hline', h⟩
  have hids := (h 0).1
  rw [(convertRecord_stored hline 0).1, (convertRecord_stored hline' 0).1] at hids
  revert hids
  decide

end MoeSpecialization.Pipeline
