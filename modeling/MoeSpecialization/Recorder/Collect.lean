import MoeSpecialization.Recorder.SelectExperts

/-!
# When a pass is collected

Reference: `with_forward_pass`, `_on_forward_pass_end` and `_DetailSinglePassGatherer.collect` in
`sglang/srt/eplb/expert_distribution.py`.

`collect` runs in the `finally` block of every pass, whatever its batch and however its body ended. It
takes the maximum of the ids of a layer before it counts them, and that reduction has no value for a
batch without tokens. Such a pass loses its record and raises into the model runner; it leaves the
recorder as ready for the next pass as any other (`step_ready`), so the states of a run do not matter
for whether a pass is collected (`pass_collected_iff`).
-/

namespace MoeSpecialization.Recorder

open Py

section

variable (cfg : RecorderConfig)

/-- A recorder between two calls. -/
structure Ready (s : RecorderState) : Prop where
  passId : s.currentForwardPassId = none
  layerIdx : s.currentLayerIdx = none
  shaped : s.gatherer.Shaped cfg

/-- What every part of a pass keeps: the open contexts and the shapes of the buffers. -/
structure KeepsReady (s s' : RecorderState) : Prop where
  passId : s'.currentForwardPassId = s.currentForwardPassId
  layerIdx : s'.currentLayerIdx = s.currentLayerIdx
  shaped : s.gatherer.Shaped cfg → s'.gatherer.Shaped cfg

/-- The shapes alone. -/
def KeepsShape (s s' : RecorderState) : Prop := s.gatherer.Shaped cfg → s'.gatherer.Shaped cfg

variable {cfg}

theorem KeepsShape.refl (s : RecorderState) : KeepsShape cfg s s := id

theorem KeepsShape.trans (s s' s'' : RecorderState) (h : KeepsShape cfg s s')
    (h' : KeepsShape cfg s' s'') : KeepsShape cfg s s'' := fun hs => h' (h hs)

theorem KeepsReady.refl (s : RecorderState) : KeepsReady cfg s s := ⟨rfl, rfl, id⟩

theorem KeepsReady.trans (s s' s'' : RecorderState) (h : KeepsReady cfg s s')
    (h' : KeepsReady cfg s' s'') : KeepsReady cfg s s'' :=
  ⟨h'.passId.trans h.passId, h'.layerIdx.trans h.layerIdx, fun hs => h'.shaped (h.shaped hs)⟩

theorem onGatherer_shape {x : PyM Gatherer Unit}
    (hx : PyM.Preserves (fun g g' => g.Shaped cfg → g'.Shaped cfg) x) :
    PyM.Preserves (KeepsShape cfg) (RecorderState.onGatherer x) := by
  intro s
  rw [RecorderState.onGatherer, PyM.final_zoom]
  exact hx s.gatherer

theorem callHook_shape (layerIdx : ℕ) (hook : Hook) :
    PyM.Preserves (fun g g' => g.Shaped cfg → g'.Shaped cfg)
      (RecorderState.callHook cfg layerIdx hook) := by
  cases hook with
  | selectExperts topkIds routerLogits topkWeights c =>
    exact Gatherer.onSelectExperts_shaped layerIdx topkIds routerLogits topkWeights
  | deepepDispatchNormal perRank perRdmaRank perExpert c =>
    exact PyM.preserves_modify fun g hg => { hg with }
  | deepepDispatchLowLatency c => exact PyM.preserves_pure (fun _ => id) _

theorem hooks_shape (layerIdx : ℕ) (hooks : List Hook) :
    PyM.Preserves (KeepsShape cfg) (hooks.forM (RecorderState.onHook cfg layerIdx)) := by
  refine PyM.preserves_forM .refl .trans fun hook _ => PyM.preserves_get_bind fun s => ?_
  split
  · exact .refl s
  · split
    · exact .refl s
    · exact onGatherer_shape (callHook_shape layerIdx hook) s

theorem runBlock_shape (block : Block) :
    PyM.Preserves (KeepsShape cfg) (RecorderState.runBlock cfg block) := by
  cases block with
  | layer layerIdx hooks =>
    exact PyM.preserves_withValue .refl .trans (fun _ _ => id) layerIdx (hooks_shape layerIdx hooks)
  | disabledRegion hooks =>
    refine PyM.preserves_get_bind fun s => ?_
    refine PyM.preserves_bind .trans (PyM.preserves_modify fun _ => id) (fun _ => ?_) s
    exact PyM.preserves_tryFinally .trans (hooks_shape 0 hooks) (PyM.preserves_modify fun _ => id)

/-- The body of a pass keeps the recorder ready, whatever it does and however it ends. -/
theorem runBody_ready (p : Pass) : PyM.Preserves (KeepsReady cfg) (RecorderState.runBody cfg p) := by
  intro s
  have hframe := runBody_frame cfg p s
  refine ⟨hframe.passId, hframe.layerIdx, ?_⟩
  have hshape : PyM.Preserves (KeepsShape cfg) (RecorderState.runBody cfg p) := by
    refine PyM.preserves_bind .trans ?_ fun _ => ?_
    · exact PyM.preserves_forM .refl .trans fun block _ => runBlock_shape block
    · cases p.raises with
      | none => exact PyM.preserves_pure .refl _
      | some msg => exact PyM.preserves_throw .refl _
  exact hshape s

theorem onForwardPassEnd_ready (forwardPassId : ℕ) :
    PyM.Preserves (KeepsReady cfg) (RecorderState.onForwardPassEnd cfg forwardPassId) := by
  refine PyM.preserves_get_bind fun s => ?_
  split
  · refine PyM.preserves_bind .trans (PyM.preserves_ofExcept .refl _) (fun data => ?_) s
    exact PyM.preserves_modify fun _ => ⟨rfl, rfl, id⟩
  · exact .refl s

theorem passStart_shaped {s : RecorderState} (h : s.gatherer.Shaped cfg) (p : Pass) :
    (passStart p s).gatherer.Shaped cfg := by
  unfold passStart
  dsimp only
  split
  · exact { h.reset with }
  · exact h

/-! ## The end of a pass -/

/-- The state in which the cleanup of a pass runs. -/
def bodyEnd (cfg : RecorderConfig) (p : Pass) (s : RecorderState) : RecorderState :=
  PyM.final (RecorderState.runBody cfg p) (passStart p s)

theorem passStart_passId (p : Pass) (s : RecorderState) :
    (passStart p s).currentForwardPassId = some p.forwardPassId := by
  unfold passStart
  dsimp only
  split <;> rfl

theorem passStart_layerIdx (p : Pass) (s : RecorderState) :
    (passStart p s).currentLayerIdx = s.currentLayerIdx := by
  unfold passStart
  dsimp only
  split <;> rfl

theorem bodyEnd_ready (p : Pass) (s : RecorderState) :
    KeepsReady cfg (passStart p s) (bodyEnd cfg p s) := runBody_ready p (passStart p s)

/-- The recorder after a pass is what the cleanup makes of the end of the body, also when it raises. -/
theorem final_withForwardPass {p : Pass} {s : RecorderState} (h : s.currentForwardPassId = none) :
    PyM.final (RecorderState.withForwardPass cfg p) s =
      (PyM.final (RecorderState.onForwardPassEnd cfg p.forwardPassId)
        (bodyEnd cfg p s)).setForwardPassId none := by
  have hinner : PyM.final (do
      RecorderState.onForwardPassStart p.batch
      PyM.tryFinally (RecorderState.runBody cfg p)
        (RecorderState.onForwardPassEnd cfg p.forwardPassId) : PyM RecorderState Unit)
        (s.setForwardPassId (some p.forwardPassId)) =
      PyM.final (RecorderState.onForwardPassEnd cfg p.forwardPassId) (bodyEnd cfg p s) := by
    rw [PyM.final, PyM.run_bind_of_ok (run_onForwardPassStart p s), ← PyM.final,
      PyM.final_tryFinally, bodyEnd]
  have hend := @onForwardPassEnd_ready cfg p.forwardPassId (bodyEnd cfg p s)
  have hhold := hend.passId.trans ((bodyEnd_ready p s).passId.trans (passStart_passId p s))
  rw [← hinner] at hhold
  rw [RecorderState.withForwardPass, PyM.final_withValue h hhold, hinner]

theorem step_forwardPass (p : Pass) (s : RecorderState) :
    (step cfg s (.forwardPass p)).1 = PyM.final (RecorderState.withForwardPass cfg p) s := by
  rw [step, PyM.final]
  cases (RecorderState.withForwardPass cfg p).run s <;> rfl

/-- The step lemma: every call leaves the recorder ready, also a pass whose record is lost. -/
theorem step_ready {s : RecorderState} (h : Ready cfg s) (op : Op) : Ready cfg (step cfg s op).1 := by
  cases op with
  | startRecord =>
    rw [step, run_startRecord h.layerIdx]
    exact ⟨h.passId, h.layerIdx, h.shaped.reset⟩
  | stopRecord => exact ⟨h.passId, h.layerIdx, h.shaped⟩
  | dumpRecord =>
    rw [step, run_dumpRecord cfg h.layerIdx]
    exact ⟨h.passId, h.layerIdx, h.shaped.reset⟩
  | getStatus =>
    rw [step_getStatus]
    exact h
  | forwardPass p =>
    have hbody := @bodyEnd_ready cfg p s
    have hend := @onForwardPassEnd_ready cfg p.forwardPassId (bodyEnd cfg p s)
    rw [step_forwardPass, final_withForwardPass h.passId]
    refine ⟨rfl, ?_, ?_⟩
    · exact hend.layerIdx.trans (hbody.layerIdx.trans ((passStart_layerIdx p s).trans h.layerIdx))
    · exact hend.shaped (hbody.shaped (passStart_shaped h.shaped p))

/-- The run lemma. -/
theorem run_ready {s : RecorderState} (h : Ready cfg s) (ops : List Op) :
    Ready cfg (run cfg s ops).1 := by
  induction ops generalizing s with
  | nil => exact h
  | cons op ops ih => exact ih (step_ready h op)

theorem ready_init (cfg : RecorderConfig) : Ready cfg (.init cfg) := ⟨rfl, rfl, shaped_init cfg⟩

/-! ## The record of a pass -/

/-- The number of times that each physical expert stands in the rows of a layer. -/
def validCounts (numPhysicalExperts : ℕ) (rows : List (List ℤ)) : List ℕ :=
  (List.range numPhysicalExperts).map fun e : ℕ => rows.flatten.count (e : ℤ)

/-- Every layer of a nested tensor has `n` rows. -/
def HasRows {α : Type} (numLayers n : ℕ) (tensor : List (List (List α))) : Prop :=
  tensor.length = numLayers ∧ ∀ rows ∈ tensor, rows.length = n

/-- The cleanup of the pass collects a record, which is appended: its tensors have a row for every token
of the batch, and its counts are those of the ids in them. -/
def PassCollected (cfg : RecorderConfig) (s : RecorderState) (p : Pass) : Prop :=
  ∃ data, (bodyEnd cfg p s).gatherer.collect cfg = .ok data ∧
    (step cfg s (.forwardPass p)).1.records = s.records ++
      [{ data with forwardPassId := p.forwardPassId, rank := cfg.rank, gathererKey := "primary" }] ∧
    HasRows cfg.numLayers p.batch.inputIds.length data.topkIdsOfLayer ∧
    HasRows cfg.numLayers p.batch.inputIds.length data.topkWeightsOfLayer ∧
    HasRows cfg.numLayers p.batch.inputIds.length data.routerLogitsOfLayer ∧
    data.globalPhysicalCount = data.topkIdsOfLayer.map (validCounts cfg.numPhysicalExperts)

theorem hasRows_takeRows {α : Type} {t : Tensor3 α} {n : ℕ} (h : t.dim0 = 0 ∨ n ≤ t.dim1) :
    HasRows t.dim0 n (t.takeRows n) := by
  refine ⟨t.length_takeRows n, fun rows hrows => ?_⟩
  rcases h with h | h
  · rw [Tensor3.takeRows, h] at hrows
    cases hrows
  · rw [Tensor3.length_of_mem_takeRows hrows, Nat.min_eq_left h]

theorem le_of_hasRows_takeRows {α : Type} {t : Tensor3 α} {n : ℕ} (hpos : 0 < t.dim0)
    (h : HasRows t.dim0 n (t.takeRows n)) : n ≤ t.dim1 := by
  have hmem : t.layerRows n 0 ∈ t.takeRows n := List.mem_map_of_mem (List.mem_range.mpr hpos)
  have hlen := h.2 _ hmem
  rw [Tensor3.length_of_mem_takeRows hmem] at hlen
  omega

/-- The collected counts are those of the collected ids. -/
theorem collect_validCounts {g : Gatherer} {batch : ForwardBatch} {data : SinglePassData}
    (hg : g.Shaped cfg) (hmeta : g.metadata = some batch) (h : g.collect cfg = .ok data) :
    data.globalPhysicalCount = data.topkIdsOfLayer.map (validCounts cfg.numPhysicalExperts) := by
  obtain ⟨hids, -, -, hcount⟩ := collect_eq_ok hmeta h
  have hmap : (List.range cfg.numLayers).mapM (Gatherer.countLayer batch.inputIds.length
      cfg.numPhysicalExperts g.topkIdsOfLayer) = .ok ((List.range cfg.numLayers).map fun l =>
        validCounts cfg.numPhysicalExperts (g.topkIdsOfLayer.layerRows batch.inputIds.length l)) := by
    refine mapM_eq_ok_map fun l hl => ?_
    obtain ⟨count, hl⟩ := forall_of_mapM_eq_ok hcount l hl
    rw [hl, countLayer_eq_ok hl, validCounts]
  rw [Except.ok.inj (hcount.symm.trans hmap), hids, Tensor3.takeRows, List.map_map, hg.ids_dim0]
  rfl

/-- `collect` returns if there is nothing to count, or a token. -/
theorem exists_collect {g : Gatherer} {batch : ForwardBatch} (hg : g.Shaped cfg)
    (hmeta : g.metadata = some batch)
    (h : cfg.numLayers = 0 ∨ 1 ≤ batch.inputIds.length) : ∃ data, g.collect cfg = .ok data := by
  rcases h with hzero | hpos
  · rw [Gatherer.collect, hmeta]
    simp only [Gatherer.convertPerTokenToGlobalPhysicalCount, hzero, List.range_zero, List.mapM_nil]
    exact ⟨_, rfl⟩
  · refine collect_ok cfg hmeta (List.ne_nil_of_length_pos hpos) ?_ hg.width_pos
    rw [hg.ids_dim1]
    exact Nat.mul_pos cfg.chunk_pos (by decide)

/-- What `_on_forward_pass_end` appends for a pass. -/
def passRecord (cfg : RecorderConfig) (p : Pass) (data : SinglePassData) : PassRecord :=
  { data with forwardPassId := p.forwardPassId, rank := cfg.rank, gathererKey := "primary" }

/-- A pass appends what `collect` returns, if the recorder is on and `collect` returns. -/
theorem records_step_forwardPass {s : RecorderState} {p : Pass} (hready : Ready cfg s) :
    (step cfg s (.forwardPass p)).1.records = s.records ++
      if s.recording then
        (((bodyEnd cfg p s).gatherer.collect cfg).toOption.map (passRecord cfg p)).toList
      else [] := by
  have hframe := runBody_frame cfg p (passStart p s)
  have hstart : (passStart p s).recording = s.recording ∧ (passStart p s).records = s.records := by
    unfold passStart
    dsimp only
    split <;> exact ⟨rfl, rfl⟩
  have hrec : (bodyEnd cfg p s).recording = s.recording := hframe.recording.trans hstart.1
  have hrecords : (bodyEnd cfg p s).records = s.records := hframe.records.trans hstart.2
  rw [step_forwardPass, final_withForwardPass hready.passId, RecorderState.onForwardPassEnd,
    PyM.final_get_bind, hrec, ← hrecords]
  split
  · cases (bodyEnd cfg p s).gatherer.collect cfg with
    | ok data => rfl
    | error e => exact (List.append_nil _).symm
  · exact (List.append_nil _).symm

theorem records_step_of_collect {s : RecorderState} {p : Pass} {data : SinglePassData}
    (hready : Ready cfg s) (hon : s.recording = true)
    (h : (bodyEnd cfg p s).gatherer.collect cfg = .ok data) :
    (step cfg s (.forwardPass p)).1.records = s.records ++
      [{ data with forwardPassId := p.forwardPassId, rank := cfg.rank, gathererKey := "primary" }] := by
  rw [records_step_forwardPass hready, if_pos hon, h]
  rfl

/-- A pass that leaves a record was collected. -/
theorem collect_of_records_step {s : RecorderState} {p : Pass} {r : PassRecord} (hready : Ready cfg s)
    (h : (step cfg s (.forwardPass p)).1.records = s.records ++ [r]) :
    s.recording = true ∧ (bodyEnd cfg p s).gatherer.collect cfg = .ok r.toSinglePassData := by
  rw [records_step_forwardPass hready, List.append_cancel_left_eq] at h
  split at h
  · rename_i hon
    refine ⟨hon, ?_⟩
    cases hcollect : (bodyEnd cfg p s).gatherer.collect cfg with
    | error e =>
      rw [hcollect] at h
      cases h
    | ok data =>
      rw [hcollect] at h
      cases h
      rfl
  · cases h

theorem bodyEnd_metadata {s : RecorderState} {p : Pass} (hon : s.recording = true) :
    (bodyEnd cfg p s).gatherer.metadata = some p.batch := by
  refine (runBody_frame cfg p (passStart p s)).gatherer.metadata.trans ?_
  unfold passStart
  dsimp only
  split
  · rfl
  · rename_i hoff
    exact absurd hon hoff

theorem bodyEnd_shaped {s : RecorderState} (p : Pass) (hready : Ready cfg s) :
    (bodyEnd cfg p s).gatherer.Shaped cfg :=
  (bodyEnd_ready p s).shaped (passStart_shaped hready.shaped p)

/-- **Collecting a pass.** In every state that a run of control calls and passes reaches, with recording
on, a pass is collected if and only if the model has no layer, or the batch has a token and its tokens
fit the buffers. -/
theorem pass_collected_iff (cfg : RecorderConfig) (ops : List Op) (p : Pass)
    (hon : (run cfg (.init cfg) ops).1.recording = true) :
    PassCollected cfg (run cfg (.init cfg) ops).1 p ↔
      cfg.numLayers = 0 ∨
        1 ≤ p.batch.inputIds.length ∧ p.batch.inputIds.length ≤ cfg.bufferRows := by
  have hready := run_ready (ready_init cfg) ops
  generalize (run cfg (.init cfg) ops).1 = s at hready hon
  have hshaped := bodyEnd_shaped p hready
  have hmeta := @bodyEnd_metadata cfg s p hon
  constructor
  · rintro ⟨data, hcollect, -, hids, -⟩
    by_cases hzero : cfg.numLayers = 0
    · exact .inl hzero
    · refine .inr ⟨tokens_pos_of_collect hmeta hcollect hzero, ?_⟩
      rw [(collect_eq_ok hmeta hcollect).1, ← hshaped.ids_dim0] at hids
      rw [← hshaped.ids_dim1]
      exact le_of_hasRows_takeRows (by rw [hshaped.ids_dim0]; omega) hids
  · intro h
    obtain ⟨data, hcollect⟩ := exists_collect hshaped hmeta (h.imp_right And.left)
    have hfits : cfg.numLayers = 0 ∨ p.batch.inputIds.length ≤ cfg.bufferRows := h.imp_right And.right
    obtain ⟨hids, hlogits, hweights, -⟩ := collect_eq_ok hmeta hcollect
    refine ⟨data, hcollect, records_step_of_collect hready hon hcollect, ?_, ?_, ?_,
      collect_validCounts hshaped hmeta hcollect⟩
    · rw [hids, ← hshaped.ids_dim0]
      exact hasRows_takeRows (by rw [hshaped.ids_dim0, hshaped.ids_dim1]; exact hfits)
    · rw [hweights, ← hshaped.weights_dim0]
      exact hasRows_takeRows (by rw [hshaped.weights_dim0, hshaped.weights_dim1]; exact hfits)
    · rw [hlogits, ← hshaped.logits_dim0]
      exact hasRows_takeRows (by rw [hshaped.logits_dim0, hshaped.logits_dim1]; exact hfits)

theorem pass_collected_iff_sample :
    PassCollected sampleConfig (run sampleConfig (.init sampleConfig) [.startRecord]).1
      (samplePass 1 none) :=
  (pass_collected_iff sampleConfig [.startRecord] (samplePass 1 none) rfl).mpr
    (.inr ⟨by decide, by decide⟩)

/-- The pass of an idle batch, which has no tokens. -/
def idlePass : Pass := { forwardPassId := 2, batch := { inputIds := [], forwardMode := .idle } }

/-- An idle batch right after `start_record`: the maximum of an empty tensor raises, and the pass leaves
no record. -/
theorem idlePass_not_collected :
    (run sampleConfig (.init sampleConfig) [.startRecord]).1.recording = true ∧
      ¬PassCollected sampleConfig (run sampleConfig (.init sampleConfig) [.startRecord]).1 idlePass := by
  refine ⟨rfl, ?_⟩
  rintro ⟨data, hcollect, -⟩
  cases hcollect

end

end MoeSpecialization.Recorder
