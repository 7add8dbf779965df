import MoeSpecialization.Postprocess.Convert

/-!
# Counting expert selections

Reference: `analyze_expert_selection`.

Every row of every layer is counted, under the same id filter as the conversion. Weights are added only
for rows whose weight row has the same length. The two dictionaries are mutated in place and survive an
exception; the numbers of processed and skipped records are local and do not.
-/

namespace MoeSpecialization.Postprocess

open Py

/-- `layer_expert_counts` and `layer_expert_weights`. -/
structure ExpertTotals where
  layerExpertCounts : PyDict ℕ (PyDict ℤ ℕ) := ∅
  layerExpertWeights : PyDict ℕ (PyDict ℤ ℚ) := ∅
deriving DecidableEq

instance : EmptyCollection ExpertTotals := ⟨{}⟩

/-- The `stats` of one call. -/
structure Stats where
  processed : ℕ := 0
  skipped : ℕ := 0
deriving DecidableEq

instance : Zero Stats := ⟨{}⟩

instance : Add Stats := ⟨fun a b => ⟨a.processed + b.processed, a.skipped + b.skipped⟩⟩

@[simp] theorem Stats.add_zero (a : Stats) : a + 0 = a := rfl

/-- `layer_expert_counts[layer_idx][expert_id] += 1`. -/
def ExpertTotals.addCount (t : ExpertTotals) (layerIdx : ℕ) (expertId : ℤ) : ExpertTotals :=
  { t with layerExpertCounts := t.layerExpertCounts.addAt layerIdx expertId 1 }

/-- `layer_expert_weights[layer_idx][expert_id] += weight`. -/
def ExpertTotals.addWeight (t : ExpertTotals) (layerIdx : ℕ) (expertId : ℤ) (weight : ℚ) :
    ExpertTotals :=
  { t with layerExpertWeights := t.layerExpertWeights.addAt layerIdx expertId weight }

/-- The body of the loop over the ids of a row. Comparing `null` with a number raises. -/
def countSlot (layerIdx : ℕ) : Option ℤ → PyM ExpertTotals Unit
  | none => throw .typeError
  | some e => if isValidExpert e then modify fun t => t.addCount layerIdx e else pure ()

/-- The body of the loop over the weights of a row. -/
def weighSlot (layerIdx : ℕ) : Option ℤ × Option ℚ → PyM ExpertTotals Unit
  | (none, _) => throw .typeError
  | (some e, weight) =>
    if isValidExpert e then do
      let w ← PyM.ofExcept (pyFloat weight)
      modify fun t => t.addWeight layerIdx e w
    else pure ()

/-- One row: its ids are counted, and weighed if the weight row has the same length. -/
def analyzeRow (layerIdx : ℕ) (batchTopkIds : Row ℤ) (batchTopkWeights : Row ℚ) :
    PyM ExpertTotals Unit :=
  match batchTopkIds with
  | none | some [] => pure ()
  | some ids => do
    ids.forM (countSlot layerIdx)
    match batchTopkWeights with
    | none | some [] => pure ()
    | some weights =>
      if weights.length = ids.length then (ids.zip weights).forM (weighSlot layerIdx) else pure ()

/-- One layer: all of its rows. -/
def analyzeLayer (layerIdx : ℕ) (layerTopkIds : LayerRows ℤ) (layerTopkWeights : LayerRows ℚ) :
    PyM ExpertTotals Unit :=
  layerTopkIds.zipIdx.forM fun (row, batchIdx) =>
    analyzeRow layerIdx row (layerTopkWeights.getD batchIdx none)

/-- The token id the EOS/PAD filter looks at. -/
def Record.filterTokenId (record : Record) : Option ℤ :=
  match record.outputTokenId with
  | some tokenId => some tokenId
  | none => (record.inputIds.getD []).head?

/-- The records that `analyze_expert_selection` leaves out. -/
def Record.isSkipped (eosTokenIds : List ℤ) (record : Record) : Bool :=
  record.filterTokenId.any (· ∈ eosTokenIds) || record.topkIdsOfLayer.isEmpty

/-- One iteration of the loop over the records. -/
def analyzeRecord (eosTokenIds : List ℤ) (stats : Stats) (record : Record) :
    PyM ExpertTotals Stats :=
  if record.isSkipped eosTokenIds then
    pure { stats with skipped := stats.skipped + 1 }
  else do
    record.topkIdsOfLayer.zipIdx.forM fun (layerTopkIds, layerIdx) =>
      analyzeLayer layerIdx layerTopkIds (record.topkWeightsOfLayer.getD layerIdx [])
    pure { stats with processed := stats.processed + 1 }

/-- `analyze_expert_selection`, on the dictionaries of the state. -/
def analyzeExpertSelection (records : List Record) (eosTokenIds : List ℤ) :
    PyM ExpertTotals Stats :=
  records.foldlM (analyzeRecord eosTokenIds) 0

/-- A `null` row is an empty one. -/
theorem analyzeRow_eq (layerIdx : ℕ) (ids : Row ℤ) (weights : Row ℚ) :
    analyzeRow layerIdx ids weights = (ids.getD []).forM (countSlot layerIdx) >>= fun _ =>
      if (weights.getD []).length = (ids.getD []).length then
        ((ids.getD []).zip (weights.getD [])).forM (weighSlot layerIdx)
      else pure () := by
  match ids, weights with
  | none, none | none, some [] | none, some (_ :: _) => rfl
  | some [], none | some [], some [] | some [], some (_ :: _) => rfl
  | some (_ :: _), none | some (_ :: _), some [] | some (_ :: _), some (_ :: _) => rfl

/-! ## Sums of calls -/

/-- The counters of a record do not depend on where they start. -/
theorem analyzeRecord_eq_ok_add {eosTokenIds : List ℤ} {stats stats' : Stats} {record : Record}
    {t t' : ExpertTotals} (base : Stats)
    (h : (analyzeRecord eosTokenIds stats record).run t = .ok stats' t') :
    (analyzeRecord eosTokenIds (base + stats) record).run t = .ok (base + stats') t' := by
  unfold analyzeRecord at h ⊢
  split at h
  · rename_i hskip
    rw [if_pos hskip]
    cases h
    rfl
  · rename_i hskip
    rw [if_neg hskip]
    obtain ⟨u, s', hloop, hret⟩ := PyM.run_bind_eq_ok.mp h
    rw [PyM.run_bind_of_ok hloop]
    cases hret
    rfl

/-- Starting the loop at other counters shifts the result. -/
theorem foldlM_analyzeRecord_add {eosTokenIds : List ℤ} {records : List Record}
    {stats stats' : Stats} {t t' : ExpertTotals} (base : Stats)
    (h : (records.foldlM (analyzeRecord eosTokenIds) stats).run t = .ok stats' t') :
    (records.foldlM (analyzeRecord eosTokenIds) (base + stats)).run t = .ok (base + stats') t' := by
  induction records generalizing stats t with
  | nil => cases h; rfl
  | cons record records ih =>
    rw [List.foldlM_cons] at h ⊢
    obtain ⟨mid, s', hrec, hrest⟩ := PyM.run_bind_eq_ok.mp h
    rw [PyM.run_bind_of_ok (analyzeRecord_eq_ok_add base hrec)]
    exact ih hrest

/-- Two calls on the same dictionaries are one call on the concatenation. -/
theorem analyzeExpertSelection_append {eosTokenIds : List ℤ} {records records' : List Record}
    {stats stats' : Stats} {t t' t'' : ExpertTotals}
    (h : (analyzeExpertSelection records eosTokenIds).run t = .ok stats t')
    (h' : (analyzeExpertSelection records' eosTokenIds).run t' = .ok stats' t'') :
    (analyzeExpertSelection (records ++ records') eosTokenIds).run t = .ok (stats + stats') t'' := by
  rw [analyzeExpertSelection] at h h' ⊢
  rw [List.foldlM_append, PyM.run_bind_of_ok h]
  have hshift := foldlM_analyzeRecord_add stats h'
  rwa [Stats.add_zero] at hshift

/-- Every record is processed or skipped. -/
theorem analyzeRecord_total {eosTokenIds : List ℤ} {stats stats' : Stats} {record : Record}
    {t t' : ExpertTotals} (h : (analyzeRecord eosTokenIds stats record).run t = .ok stats' t') :
    stats'.processed + stats'.skipped = stats.processed + stats.skipped + 1 := by
  unfold analyzeRecord at h
  split at h
  · cases h
    simp only
    omega
  · obtain ⟨u, s', -, hret⟩ := PyM.run_bind_eq_ok.mp h
    cases hret
    simp only
    omega

/-- A call that returns has processed or skipped each of its records. -/
theorem analyzeExpertSelection_total {eosTokenIds : List ℤ} {records : List Record}
    {stats : Stats} {t t' : ExpertTotals}
    (h : (analyzeExpertSelection records eosTokenIds).run t = .ok stats t') :
    stats.processed + stats.skipped = records.length := by
  suffices key : ∀ {start stats : Stats} {t : ExpertTotals},
      (records.foldlM (analyzeRecord eosTokenIds) start).run t = .ok stats t' →
      stats.processed + stats.skipped = start.processed + start.skipped + records.length by
    exact (key h).trans (Nat.zero_add _)
  clear h stats t
  induction records with
  | nil => intro start stats t h; cases h; rfl
  | cons record records ih =>
    intro start stats t h
    rw [List.foldlM_cons] at h
    obtain ⟨mid, s', hrec, hrest⟩ := PyM.run_bind_eq_ok.mp h
    rw [ih hrest, analyzeRecord_total hrec, List.length_cons]
    omega

end MoeSpecialization.Postprocess
