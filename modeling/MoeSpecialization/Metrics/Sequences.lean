import MoeSpecialization.Postprocess.Align
import MoeSpecialization.Postprocess.Lines

/-!
# Expert sequences by request

Reference: `extract_expert_sequences_by_request` in `metric/utils/compute_expert_metrics.py` and in
`metric/utils/n_gram_statistics.py`.

Both run through the lines in file order and append the first expert of every layer to the sequence of
the request and the layer. A line without `request_id` is skipped by the one and filed under its prompt
by the other. Aligned lines always have a `request_id`, because the request boundaries cover all token
indices, and there the two functions agree.
-/

namespace MoeSpecialization.Metrics

open Py Postprocess

/-- `request_sequences`: the experts by request and layer. -/
abbrev Sequences := PyDict ℕ (PyDict ℤ (List ℤ))

/-- `request_sequences[request_id][layer_idx].append(primary_expert)`. -/
def Sequences.push (seqs : Sequences) (requestId : ℕ) (layerIdx primaryExpert : ℤ) : Sequences :=
  seqs.modify requestId ∅ fun layers => layers.modify layerIdx [] (· ++ [primaryExpert])

/-- The sequence of a request on a layer. -/
def Sequences.seq (seqs : Sequences) (requestId : ℕ) (layerIdx : ℤ) : List ℤ :=
  (seqs.getD requestId ∅).getD layerIdx []

/-- The body of the loop over the layers of a line: a key that is no integer and a layer without experts
are passed over. -/
def pushLayer (requestId : ℕ) (seqs : Sequences) : String × LayerData → Sequences
  | (layerKey, layerData) =>
    match pyInt layerKey with
    | none => seqs
    | some layerIdx =>
      match layerData.expertIds with
      | [] => seqs
      | primaryExpert :: _ => seqs.push requestId layerIdx primaryExpert

/-- The loop over the layers of a line. -/
def pushLayers (requestId : ℕ) (record : OutputRecord) (seqs : Sequences) : Sequences :=
  record.layers.entries.foldl (pushLayer requestId) seqs

namespace NGramStatistics

/-- The body of the loop over the lines. -/
def extractRecord (seqs : Sequences) (record : OutputRecord) : Sequences :=
  match record.requestId with
  | none => seqs
  | some requestId => if record.layers.entries = [] then seqs else pushLayers requestId record seqs

/-- `extract_expert_sequences_by_request` of `n_gram_statistics.py`. -/
def extractExpertSequencesByRequest (records : List OutputRecord) : Sequences :=
  records.foldl extractRecord ∅

end NGramStatistics

namespace ComputeExpertMetrics

/-- The variables of the loop over the lines. -/
structure Extraction where
  requestSequences : Sequences := ∅
  promptToId : PyDict Json.HashKey ℕ := ∅
  nextPromptId : ℕ := 0

/-- The id of a prompt, a new one for a prompt not met before. -/
def promptId (s : Extraction) (prompt : Json) : Except Error (ℕ × Extraction) := do
  let key ← prompt.hashKey
  match s.promptToId.get? key with
  | some i => .ok (i, s)
  | none =>
    .ok (s.nextPromptId, { s with
      promptToId := s.promptToId.set key s.nextPromptId
      nextPromptId := s.nextPromptId + 1 })

/-- The second half of the loop body, for a line of known request. -/
def Extraction.add (s : Extraction) (requestId : ℕ) (record : OutputRecord) : Extraction :=
  if record.layers.entries = [] then s
  else { s with requestSequences := pushLayers requestId record s.requestSequences }

/-- The body of the loop over the lines. -/
def extractRecord (s : Extraction) (record : OutputRecord) : Except Error Extraction :=
  match record.requestId with
  | some requestId => .ok (s.add requestId record)
  | none =>
    match record.prompt with
    | none | some .null => .ok s
    | some prompt => do
      let (requestId, s) ← promptId s prompt
      .ok (s.add requestId record)

/-- `extract_expert_sequences_by_request` of `compute_expert_metrics.py`. -/
def extractExpertSequencesByRequest (records : List OutputRecord) : Except Error Sequences := do
  let s ← records.foldlM extractRecord {}
  .ok s.requestSequences

end ComputeExpertMetrics

/-! ## Lines with a request -/

/-- On lines that have a request, the two extractions are the same. -/
theorem extractExpertSequences_eq {records : List OutputRecord}
    (h : ∀ record ∈ records, record.requestId.isSome) :
    ComputeExpertMetrics.extractExpertSequencesByRequest records =
      .ok (NGramStatistics.extractExpertSequencesByRequest records) := by
  suffices key : ∀ s : ComputeExpertMetrics.Extraction,
      records.foldlM ComputeExpertMetrics.extractRecord s = .ok { s with
        requestSequences := records.foldl NGramStatistics.extractRecord s.requestSequences } by
    rw [ComputeExpertMetrics.extractExpertSequencesByRequest, key]
    rfl
  induction records with
  | nil => exact fun s => rfl
  | cons record records ih =>
    intro s
    obtain ⟨requestId, hid⟩ := Option.isSome_iff_exists.mp (h record (by simp))
    have hstep : ComputeExpertMetrics.extractRecord s record = .ok { s with
        requestSequences := NGramStatistics.extractRecord s.requestSequences record } := by
      rw [ComputeExpertMetrics.extractRecord, NGramStatistics.extractRecord, hid]
      simp only [ComputeExpertMetrics.Extraction.add]
      split <;> rfl
    rw [List.foldlM_cons, hstep, List.foldl_cons]
    exact ih (fun r hr => h r (by simp [hr])) _

/-! ## What the sequences hold -/

theorem Sequences.seq_push (seqs : Sequences) (r r' : ℕ) (l l' e : ℤ) :
    (seqs.push r l e).seq r' l' = seqs.seq r' l' ++ if r' = r ∧ l' = l then [e] else [] := by
  rw [Sequences.push, Sequences.seq, PyDict.getD_modify]
  by_cases hr : r' = r
  · subst hr
    rw [if_pos rfl, PyDict.getD_modify]
    by_cases hl : l' = l
    · subst hl
      simp [Sequences.seq]
    · simp [Sequences.seq, hl]
  · simp [Sequences.seq, hr]

/-- The first experts that a line has for a layer. -/
def primaryExperts (record : OutputRecord) (layerIdx : ℤ) : List ℤ :=
  record.layers.entries.filterMap fun p =>
    if pyInt p.1 = some layerIdx then p.2.expertIds.head? else none

theorem seq_pushLayers (record : OutputRecord) (seqs : Sequences) (r r' : ℕ) (l : ℤ) :
    (pushLayers r record seqs).seq r' l =
      seqs.seq r' l ++ if r' = r then primaryExperts record l else [] := by
  rw [pushLayers, primaryExperts]
  generalize record.layers.entries = entries
  induction entries generalizing seqs with
  | nil => simp
  | cons p entries ih =>
    obtain ⟨key, d⟩ := p
    rw [List.foldl_cons, ih, List.filterMap_cons]
    have hstep : (pushLayer r seqs (key, d)).seq r' l = seqs.seq r' l ++
        if r' = r then (if pyInt key = some l then d.expertIds.head? else none).toList else [] := by
      simp only [pushLayer]
      cases hkey : pyInt key with
      | none => simp
      | some l' =>
        cases hids : d.expertIds with
        | nil => simp
        | cons e es =>
          simp only [Sequences.seq_push, List.head?_cons, Option.some.injEq]
          by_cases hr : r' = r <;> by_cases hl : l = l' <;> simp [hr, hl, eq_comm]
    rw [hstep, List.append_assoc]
    congr 1
    by_cases hr : r' = r
    · simp only [if_pos hr]
      cases (if pyInt key = some l then d.expertIds.head? else none) <;> rfl
    · simp [hr]

/-- The sequence of a request on a layer: the first experts of its lines, in file order. -/
theorem seq_extractExpertSequences (records : List OutputRecord) (r : ℕ) (l : ℤ) :
    (NGramStatistics.extractExpertSequencesByRequest records).seq r l =
      (records.filter (·.requestId = some r)).flatMap (primaryExperts · l) := by
  suffices key : ∀ seqs : Sequences, (records.foldl NGramStatistics.extractRecord seqs).seq r l =
      seqs.seq r l ++ (records.filter (·.requestId = some r)).flatMap (primaryExperts · l) from
    key ∅
  induction records with
  | nil => simp
  | cons record records ih =>
    intro seqs
    rw [List.foldl_cons, ih, List.filter_cons]
    have hstep : (NGramStatistics.extractRecord seqs record).seq r l = seqs.seq r l ++
        if record.requestId = some r then primaryExperts record l else [] := by
      rw [NGramStatistics.extractRecord]
      cases hid : record.requestId with
      | none => simp
      | some r' =>
        simp only [Option.some.injEq]
        by_cases hempty : record.layers.entries = []
        · simp [hempty, primaryExperts]
        · rw [if_neg hempty, seq_pushLayers]
          simp only [eq_comm]
    rw [hstep]
    by_cases hid : record.requestId = some r <;> simp [hid]

end MoeSpecialization.Metrics
