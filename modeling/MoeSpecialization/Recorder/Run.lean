import MoeSpecialization.Recorder.Recorder
import Mathlib.Data.List.Induction

/-!
# Runs of the recorder

A run is a sequence of control calls and forward passes, the control calls standing between passes. Its
purpose is stated by the machine `Ideal`: a flag and the ids of the passes that ran with the flag on
since the last start or dump. `Sim` relates a recorder between two calls to an ideal one, and
`step_sim` carries it over every call; no assertion fails on the way.

A pass is the delicate step. Its body may do anything the hooks allow and end in an exception, so what
it leaves alone (`SameFrame`) is shown for both outcomes, and the cleanup then finds the metadata that
the start of the pass stored and buffers with at least one row.
-/

namespace MoeSpecialization.Recorder

open Py

/-- A call on the recorder. -/
inductive Op where
  | startRecord
  | stopRecord
  | dumpRecord
  | getStatus
  | forwardPass (p : Pass)

/-- What the caller gets back. -/
inductive Reply where
  | done
  | dump (d : Dump)
  | status (st : Status)
  | raised (e : Error)

/-- The state and the reply of a call. -/
def reply {α : Type} (mk : α → Reply) : EStateM.Result Error RecorderState α → RecorderState × Reply
  | .ok a s => (s, mk a)
  | .error e s => (s, .raised e)

section

variable (cfg : RecorderConfig)

/-- One call. -/
def step (s : RecorderState) : Op → RecorderState × Reply
  | .startRecord => reply (fun _ => .done) (RecorderState.startRecord.run s)
  | .stopRecord => reply (fun _ => .done) (RecorderState.stopRecord.run s)
  | .dumpRecord => reply .dump ((RecorderState.dumpRecord cfg).run s)
  | .getStatus => reply .status ((RecorderState.getStatus cfg).run s)
  | .forwardPass p => reply (fun _ => .done) ((RecorderState.withForwardPass cfg p).run s)

/-- A run: the state after all calls, and their replies. -/
def run (s : RecorderState) : List Op → RecorderState × List Reply
  | [] => (s, [])
  | op :: ops =>
    let (s', r) := step cfg s op
    let (s'', rs) := run s' ops
    (s'', r :: rs)

end

/-! ## The ideal recorder -/

/-- What the recorder is for: a flag, and the passes to be dumped. -/
structure Ideal where
  recording : Bool
  pending : List ℕ
deriving DecidableEq

/-- The ideal recorder before the first call. -/
def Ideal.init : Ideal := ⟨false, []⟩

/-- One call on the ideal recorder. -/
def Ideal.step (i : Ideal) : Op → Ideal
  | .startRecord => ⟨true, []⟩
  | .stopRecord => { i with recording := false }
  | .dumpRecord => { i with pending := [] }
  | .getStatus => i
  | .forwardPass p => if i.recording then { i with pending := i.pending ++ [p.forwardPassId] } else i

/-! ## What the body of a pass leaves alone -/

/-- What hooks never change in the gatherer. The buffers may get wider. -/
structure Gatherer.SameFrame (g g' : Gatherer) : Prop where
  metadata : g'.metadata = g.metadata
  dim1 : g'.topkIdsOfLayer.dim1 = g.topkIdsOfLayer.dim1
  dim2 : g.topkIdsOfLayer.dim2 ≤ g'.topkIdsOfLayer.dim2

theorem Gatherer.SameFrame.refl (g : Gatherer) : Gatherer.SameFrame g g := ⟨rfl, rfl, le_rfl⟩

theorem Gatherer.SameFrame.trans (g g' g'' : Gatherer) (h : Gatherer.SameFrame g g')
    (h' : Gatherer.SameFrame g' g'') : Gatherer.SameFrame g g'' :=
  ⟨h'.metadata.trans h.metadata, h'.dim1.trans h.dim1, h.dim2.trans h'.dim2⟩

theorem Gatherer.writeTopkIds_frame (layerIdx : ℕ) (m : Mat ℤ) :
    PyM.Preserves Gatherer.SameFrame (Gatherer.writeTopkIds layerIdx m) := by
  intro g
  rw [Gatherer.writeTopkIds, PyM.final_get_bind]
  cases h : g.topkIdsOfLayer.setBlock layerIdx m with
  | error e => exact .refl g
  | ok t =>
    obtain ⟨-, h1, h2⟩ := Tensor3.setBlock_shape h
    exact ⟨rfl, h1, h2.ge⟩

theorem Gatherer.writeRouterLogits_frame (layerIdx : ℕ) (m : Mat ℚ) :
    PyM.Preserves Gatherer.SameFrame (Gatherer.writeRouterLogits layerIdx m) := by
  intro g
  rw [Gatherer.writeRouterLogits, PyM.final_get_bind]
  split
  · cases h : g.routerLogitsOfLayer.setBlock layerIdx m with
    | error e => exact .refl g
    | ok t => exact ⟨rfl, rfl, le_rfl⟩
  · exact .refl g

theorem Gatherer.writeTopkWeights_frame (layerIdx : ℕ) (m : Mat ℚ) :
    PyM.Preserves Gatherer.SameFrame (Gatherer.writeTopkWeights layerIdx m) := by
  intro g
  rw [Gatherer.writeTopkWeights, PyM.final_get_bind]
  cases h : g.topkWeightsOfLayer.setBlock layerIdx m with
  | error e => exact .refl g
  | ok t => exact ⟨rfl, rfl, le_rfl⟩

section

variable (cfg : RecorderConfig)

theorem Gatherer.grow_frame (actualTopK : ℕ) (g : Gatherer) :
    Gatherer.SameFrame g (Gatherer.grow cfg actualTopK g) := by
  unfold Gatherer.grow
  split
  · rename_i h
    exact ⟨rfl, rfl, h.le⟩
  · exact .refl g

theorem Gatherer.onSelectExperts_frame (layerIdx : ℕ) (topkIds : Mat ℤ)
    (routerLogits topkWeights : Option (Mat ℚ)) :
    PyM.Preserves Gatherer.SameFrame
      (Gatherer.onSelectExperts cfg layerIdx topkIds routerLogits topkWeights) := by
  refine PyM.preserves_bind .trans (PyM.preserves_modify (Gatherer.grow_frame cfg _)) fun _ => ?_
  refine PyM.preserves_bind .trans (Gatherer.writeTopkIds_frame layerIdx topkIds) fun _ => ?_
  refine PyM.preserves_bind .trans ?_ fun _ => ?_
  · exact PyM.preserves_forM .refl .trans fun m _ => Gatherer.writeRouterLogits_frame layerIdx m
  · exact PyM.preserves_forM .refl .trans fun m _ => Gatherer.writeTopkWeights_frame layerIdx m

theorem RecorderState.callHook_frame (layerIdx : ℕ) (hook : Hook) :
    PyM.Preserves Gatherer.SameFrame (RecorderState.callHook cfg layerIdx hook) := by
  cases hook with
  | selectExperts topkIds routerLogits topkWeights c =>
    exact Gatherer.onSelectExperts_frame cfg layerIdx topkIds routerLogits topkWeights
  | deepepDispatchNormal perRank perRdmaRank perExpert c =>
    exact PyM.preserves_modify fun g => ⟨rfl, rfl, le_rfl⟩
  | deepepDispatchLowLatency c => exact PyM.preserves_pure .refl _

end

/-- What the body of a pass never changes in the recorder. -/
structure SameFrame (s s' : RecorderState) : Prop where
  recording : s'.recording = s.recording
  disableAll : s'.disableAll = s.disableAll
  passId : s'.currentForwardPassId = s.currentForwardPassId
  layerIdx : s'.currentLayerIdx = s.currentLayerIdx
  records : s'.records = s.records
  gatherer : Gatherer.SameFrame s.gatherer s'.gatherer

theorem SameFrame.refl (s : RecorderState) : SameFrame s s := ⟨rfl, rfl, rfl, rfl, rfl, .refl _⟩

theorem SameFrame.trans (s s' s'' : RecorderState) (h : SameFrame s s') (h' : SameFrame s' s'') :
    SameFrame s s'' :=
  ⟨h'.recording.trans h.recording, h'.disableAll.trans h.disableAll, h'.passId.trans h.passId,
    h'.layerIdx.trans h.layerIdx, h'.records.trans h.records, .trans _ _ _ h.gatherer h'.gatherer⟩

/-- A statement of the gatherer touches nothing else. -/
theorem onGatherer_frame {x : PyM Gatherer Unit} (hx : PyM.Preserves Gatherer.SameFrame x) :
    PyM.Preserves SameFrame (RecorderState.onGatherer x) := by
  intro s
  rw [RecorderState.onGatherer, PyM.final_zoom]
  exact ⟨rfl, rfl, rfl, rfl, rfl, hx s.gatherer⟩

section

variable (cfg : RecorderConfig)

theorem onHook_frame (layerIdx : ℕ) (hook : Hook) :
    PyM.Preserves SameFrame (RecorderState.onHook cfg layerIdx hook) := by
  intro s
  rw [RecorderState.onHook, PyM.final_get_bind]
  split
  · exact .refl s
  · split
    · exact .refl s
    · exact onGatherer_frame (RecorderState.callHook_frame cfg layerIdx hook) s

theorem hooks_frame (layerIdx : ℕ) (hooks : List Hook) :
    PyM.Preserves SameFrame (hooks.forM (RecorderState.onHook cfg layerIdx)) :=
  PyM.preserves_forM .refl .trans fun hook _ => onHook_frame cfg layerIdx hook

/-- A layer block sets the layer index for its hooks and unsets it on both paths. -/
theorem withCurrentLayer_frame (layerIdx : ℕ) {body : PyM RecorderState Unit}
    (hbody : PyM.Preserves SameFrame body) :
    PyM.Preserves SameFrame (RecorderState.withCurrentLayer layerIdx body) := by
  intro s
  by_cases hidx : (RecorderState.currentLayerIdx s).isSome
  · rw [RecorderState.withCurrentLayer, PyM.final, PyM.run_withValue_of_isSome hidx]
    exact .refl s
  · have hnone : RecorderState.currentLayerIdx s = none := by simpa using hidx
    have hframe := hbody (RecorderState.setLayerIdx (some layerIdx) s)
    rw [RecorderState.withCurrentLayer, PyM.final, PyM.run_withValue hnone hframe.layerIdx]
    obtain ⟨h1, h2, h3, -, h5, h6⟩ := hframe
    simp only [PyM.final] at h1 h2 h3 h5 h6
    cases hrun : body.run (RecorderState.setLayerIdx (some layerIdx) s) with
    | ok a s' => rw [hrun] at h1 h2 h3 h5 h6; exact ⟨h1, h2, h3, hnone.symm, h5, h6⟩
    | error e s' => rw [hrun] at h1 h2 h3 h5 h6; exact ⟨h1, h2, h3, hnone.symm, h5, h6⟩

/-- A disabled region restores the flag on both paths. -/
theorem disableThisRegion_frame {body : PyM RecorderState Unit}
    (hbody : PyM.Preserves SameFrame body) :
    PyM.Preserves SameFrame (RecorderState.disableThisRegion body) := by
  intro s
  obtain ⟨h1, -, h3, h4, h5, h6⟩ := hbody { s with disableAll := true }
  rw [RecorderState.disableThisRegion, PyM.final_get_bind, PyM.final,
    PyM.run_bind_of_ok (PyM.run_modify _ _), PyM.run_tryFinally_of_ok (PyM.run_modify _ _)]
  cases hrun : body.run { s with disableAll := true } <;> exact ⟨h1, rfl, h3, h4, h5, h6⟩

theorem runBlock_frame (block : Block) :
    PyM.Preserves SameFrame (RecorderState.runBlock cfg block) := by
  cases block with
  | layer layerIdx hooks => exact withCurrentLayer_frame layerIdx (hooks_frame cfg layerIdx hooks)
  | disabledRegion hooks => exact disableThisRegion_frame (hooks_frame cfg 0 hooks)

/-- The body of a pass changes neither the flag nor the records nor the metadata of the pass. -/
theorem runBody_frame (p : Pass) : PyM.Preserves SameFrame (RecorderState.runBody cfg p) := by
  refine PyM.preserves_bind .trans ?_ fun _ => ?_
  · exact PyM.preserves_forM .refl .trans fun block _ => runBlock_frame cfg block
  · cases p.raises with
    | none => exact PyM.preserves_pure .refl _
    | some msg => exact PyM.preserves_throw .refl _

end

/-! ## Collecting -/

/-- Counting returns as soon as there is a token and the buffer has a cell for it. -/
theorem countLayer_ok {numTokens : ℕ} {t : Tensor3 ℤ} (numPhysicalExperts layerIdx : ℕ)
    (htok : 0 < numTokens) (h1 : 0 < t.dim1) (h2 : 0 < t.dim2) :
    ∃ count, Gatherer.countLayer numTokens numPhysicalExperts t layerIdx = .ok count := by
  have hne : (t.layerRows numTokens layerIdx).flatten ≠ [] := by
    intro h
    have hmem : t.cell layerIdx 0 0 ∈ (t.layerRows numTokens layerIdx).flatten := by
      simp only [Tensor3.layerRows, List.mem_flatten, List.mem_map, List.mem_range]
      exact ⟨_, ⟨0, by omega, rfl⟩, List.mem_map.mpr ⟨0, List.mem_range.mpr h2, rfl⟩⟩
    rw [h] at hmem
    exact List.not_mem_nil hmem
  simp only [Gatherer.countLayer, if_neg hne]
  exact ⟨_, rfl⟩

/-- `collect` returns for a pass with a token. -/
theorem collect_ok (cfg : RecorderConfig) {g : Gatherer} {batch : ForwardBatch}
    (hmeta : g.metadata = some batch) (htok : batch.inputIds ≠ [])
    (h1 : 0 < g.topkIdsOfLayer.dim1) (h2 : 0 < g.topkIdsOfLayer.dim2) :
    ∃ data, g.collect cfg = .ok data := by
  obtain ⟨count, hcount⟩ := exists_mapM_eq_ok (List.range cfg.numLayers) fun layerIdx _ =>
    countLayer_ok cfg.numPhysicalExperts layerIdx (List.length_pos_of_ne_nil htok) h1 h2
  rw [Gatherer.collect, hmeta]
  simp only [Gatherer.convertPerTokenToGlobalPhysicalCount, hcount]
  exact ⟨_, rfl⟩

/-! ## One call -/

/-- A recorder between two calls, and the ideal one. -/
structure Sim (s : RecorderState) (i : Ideal) : Prop where
  recording : s.recording = i.recording
  pending : s.records.map (·.forwardPassId) = i.pending
  passId : s.currentForwardPassId = none
  layerIdx : s.currentLayerIdx = none
  dim1 : 0 < s.gatherer.topkIdsOfLayer.dim1
  dim2 : 0 < s.gatherer.topkIdsOfLayer.dim2

theorem sim_init (cfg : RecorderConfig) : Sim (.init cfg) .init :=
  ⟨rfl, rfl, rfl, rfl, Nat.mul_pos cfg.chunk_pos (by decide), (by decide : 0 < topKNum)⟩

/-- `_reset` between passes. -/
theorem run_reset {s : RecorderState} (h : s.currentLayerIdx = none) :
    RecorderState.reset.run s = .ok ⟨⟩ { s with gatherer := s.gatherer.reset, records := [] } := by
  rw [RecorderState.reset, PyM.run_bind_of_ok (PyM.run_get _),
    PyM.run_bind_of_ok (PyM.run_check_of_true (by simp [h]) _)]
  rfl

theorem run_startRecord {s : RecorderState} (h : s.currentLayerIdx = none) :
    RecorderState.startRecord.run s =
      .ok ⟨⟩ { s with gatherer := s.gatherer.reset, records := [], recording := true } := by
  rw [RecorderState.startRecord, PyM.run_bind_of_ok (run_reset h)]
  rfl

/-- A dump hands over the records and clears them. -/
theorem run_dumpRecord (cfg : RecorderConfig) {s : RecorderState} (h : s.currentLayerIdx = none) :
    (RecorderState.dumpRecord cfg).run s =
      .ok (s.dump cfg) { s with gatherer := s.gatherer.reset, records := [] } := by
  rw [RecorderState.dumpRecord, PyM.run_bind_of_ok (PyM.run_get _),
    PyM.run_bind_of_ok (run_reset h)]
  rfl

/-- The status only reads. -/
theorem run_getStatus (cfg : RecorderConfig) (s : RecorderState) :
    ∃ st, (RecorderState.getStatus cfg).run s = .ok st s := by
  rw [RecorderState.getStatus, PyM.run_bind_of_ok (PyM.run_get _)]
  split
  · exact ⟨_, rfl⟩
  · exact ⟨_, rfl⟩

theorem step_getStatus (cfg : RecorderConfig) (s : RecorderState) : (step cfg s .getStatus).1 = s := by
  obtain ⟨st, hst⟩ := run_getStatus cfg s
  rw [step, hst]
  rfl

/-- The state in which the body of a pass runs. -/
def passStart (p : Pass) (s : RecorderState) : RecorderState :=
  let s := s.setForwardPassId (some p.forwardPassId)
  if s.recording then s.setGatherer { s.gatherer.reset with metadata := some p.batch } else s

/-- The start of a pass: after the reset the assertion on the metadata holds. -/
theorem run_onForwardPassStart (p : Pass) (s : RecorderState) :
    (RecorderState.onForwardPassStart p.batch).run (s.setForwardPassId (some p.forwardPassId)) =
      .ok ⟨⟩ (passStart p s) := by
  rw [RecorderState.onForwardPassStart, PyM.run_bind_of_ok (PyM.run_get _), passStart]
  split <;> rfl

section

variable (cfg : RecorderConfig)

/-- The end of a pass with a token: a recorder that is on appends one record, and a recorder that is
off does nothing. -/
theorem run_onForwardPassEnd {p : Pass} {s s' : RecorderState} {i : Ideal} (hsim : Sim s i)
    (htok : p.batch.inputIds ≠ []) (hframe : SameFrame (passStart p s) s') :
    ∃ s'', (RecorderState.onForwardPassEnd cfg p.forwardPassId).run s' = .ok ⟨⟩ s'' ∧
      s''.currentForwardPassId = s'.currentForwardPassId ∧
      Sim (s''.setForwardPassId none) (i.step (.forwardPass p)) := by
  obtain ⟨hrec, -, -, hlayer, hrecords, hmeta, hdim1, hdim2⟩ := hframe
  rw [RecorderState.onForwardPassEnd, PyM.run_bind_of_ok (PyM.run_get _)]
  by_cases hon : s.recording = true
  · have hstart : passStart p s = (s.setForwardPassId (some p.forwardPassId)).setGatherer
        { s.gatherer.reset with metadata := some p.batch } := if_pos hon
    rw [hstart] at hrec hlayer hrecords hmeta hdim1 hdim2
    -- the buffers have kept their rows and got no narrower, so there is something to collect
    have hdim1' : 0 < s'.gatherer.topkIdsOfLayer.dim1 := hdim1 ▸ hsim.dim1
    have hdim2' : 0 < s'.gatherer.topkIdsOfLayer.dim2 := Nat.lt_of_lt_of_le hsim.dim2 hdim2
    obtain ⟨data, hdata⟩ := collect_ok cfg hmeta htok hdim1' hdim2'
    refine ⟨RecorderState.append cfg p.forwardPassId data s', ?_, rfl, ?_⟩
    · rw [if_pos (hrec.trans hon), hdata]
      rfl
    · have hion : i.recording = true := hsim.recording ▸ hon
      refine ⟨?_, ?_, rfl, hlayer.trans hsim.layerIdx, hdim1', hdim2'⟩
      · rw [Ideal.step, if_pos hion]
        exact hrec.trans hsim.recording
      · have hmap : s'.records.map (·.forwardPassId) = i.pending := by
          rw [hrecords]
          exact hsim.pending
        simp only [RecorderState.append, RecorderState.setForwardPassId, List.map_append, hmap,
          List.map_cons, List.map_nil, Ideal.step, if_pos hion]
  · have hstart : passStart p s = s.setForwardPassId (some p.forwardPassId) := if_neg hon
    rw [hstart] at hrec hlayer hrecords hmeta hdim1 hdim2
    have hion : ¬ i.recording = true := hsim.recording ▸ hon
    have hoff : ¬ s'.recording = true := fun h => hon (hrec.symm.trans h)
    refine ⟨s', by rw [if_neg hoff]; rfl, rfl, ?_⟩
    rw [Ideal.step, if_neg hion]
    refine ⟨hrec.trans hsim.recording, ?_, rfl, hlayer.trans hsim.layerIdx,
      hdim1 ▸ hsim.dim1, Nat.lt_of_lt_of_le hsim.dim2 hdim2⟩
    rw [RecorderState.setForwardPassId, hrecords]
    exact hsim.pending

/-- A pass with a token has the outcome of its body, and is simulated. -/
theorem run_withForwardPass {p : Pass} {s : RecorderState} {i : Ideal} (hsim : Sim s i)
    (htok : p.batch.inputIds ≠ []) :
    ∃ s', Sim s' (i.step (.forwardPass p)) ∧
      (RecorderState.withForwardPass cfg p).run s =
        PyM.mapState (fun _ => s') ((RecorderState.runBody cfg p).run (passStart p s)) := by
  have hframe := runBody_frame cfg p (passStart p s)
  obtain ⟨s'', hend, hid, hsim'⟩ := run_onForwardPassEnd cfg hsim htok hframe
  refine ⟨s''.setForwardPassId none, hsim', ?_⟩
  have hinner : (do
      RecorderState.onForwardPassStart p.batch
      PyM.tryFinally (RecorderState.runBody cfg p)
        (RecorderState.onForwardPassEnd cfg p.forwardPassId) : PyM RecorderState Unit).run
        (s.setForwardPassId (some p.forwardPassId)) =
      PyM.mapState (fun _ => s'') ((RecorderState.runBody cfg p).run (passStart p s)) := by
    rw [PyM.run_bind_of_ok (run_onForwardPassStart p s), PyM.run_tryFinally_of_ok hend]
  -- the context manager finds its own pass id at the end
  have hset : (passStart p s).currentForwardPassId = some p.forwardPassId := by
    simp only [passStart]
    split <;> rfl
  have hhold : s''.currentForwardPassId = some p.forwardPassId :=
    hid.trans (hframe.passId.trans hset)
  rw [RecorderState.withForwardPass, PyM.run_withValue hsim.passId, hinner]
  · cases (RecorderState.runBody cfg p).run (passStart p s) <;> rfl
  · rw [PyM.final, hinner]
    cases (RecorderState.runBody cfg p).run (passStart p s) <;> exact hhold

/-! ## No assertion of a body fails -/

theorem setBlock_ne_assertionError {α : Type} (t : Tensor3 α) (i : ℕ) (m : Mat α) :
    t.setBlock i m ≠ .error .assertionError := by
  unfold Tensor3.setBlock
  split
  · simp
  · split <;> simp

/-- Storing a block may raise, but not by an assertion. -/
theorem store_neverRaises {α : Type} (t : Tensor3 α) (layerIdx : ℕ) (m : Mat α)
    (store : Tensor3 α → Gatherer) :
    PyM.NeverRaises .assertionError (do
      let t ← PyM.ofExcept (t.setBlock layerIdx m)
      set (store t) : PyM Gatherer PUnit) :=
  PyM.neverRaises_bind (PyM.neverRaises_ofExcept (setBlock_ne_assertionError t layerIdx m))
    fun _ => PyM.neverRaises_set _

theorem callHook_neverRaises (layerIdx : ℕ) (hook : Hook) :
    PyM.NeverRaises .assertionError (RecorderState.callHook cfg layerIdx hook) := by
  cases hook with
  | selectExperts topkIds routerLogits topkWeights c =>
    refine PyM.neverRaises_bind (PyM.neverRaises_modify _) fun _ => ?_
    refine PyM.neverRaises_bind ?_ fun _ => PyM.neverRaises_bind ?_ fun _ => ?_
    · exact PyM.neverRaises_get_bind fun g => store_neverRaises _ _ _ _
    · refine PyM.neverRaises_forM fun m => PyM.neverRaises_get_bind fun g => ?_
      split
      · exact store_neverRaises _ _ _ _
      · exact PyM.neverRaises_pure _
    · exact PyM.neverRaises_forM fun m => PyM.neverRaises_get_bind fun g => store_neverRaises _ _ _ _
  | deepepDispatchNormal perRank perRdmaRank perExpert c => exact PyM.neverRaises_modify _
  | deepepDispatchLowLatency c => exact PyM.neverRaises_pure _

theorem hooks_neverRaises (layerIdx : ℕ) (hooks : List Hook) :
    PyM.NeverRaises .assertionError (hooks.forM (RecorderState.onHook cfg layerIdx)) := by
  refine PyM.neverRaises_forM fun hook => PyM.neverRaises_get_bind fun s => ?_
  split
  · exact PyM.neverRaises_pure _
  · split
    · exact PyM.neverRaises_pure _
    · exact PyM.neverRaises_zoom (callHook_neverRaises cfg layerIdx hook)

/-- A block entered outside any layer finds the layer index unset. -/
theorem runBlock_ne_assertionError (block : Block) {s s' : RecorderState}
    (hs : s.currentLayerIdx = none) :
    (RecorderState.runBlock cfg block).run s ≠ .error .assertionError s' := by
  cases block with
  | layer layerIdx hooks =>
    have hframe := hooks_frame cfg layerIdx hooks (RecorderState.setLayerIdx (some layerIdx) s)
    rw [RecorderState.runBlock, RecorderState.withCurrentLayer,
      PyM.run_withValue hs hframe.layerIdx]
    exact PyM.mapState_ne_error (hooks_neverRaises cfg layerIdx hooks _)
  | disabledRegion hooks =>
    rw [RecorderState.runBlock, RecorderState.disableThisRegion,
      PyM.run_bind_of_ok (PyM.run_get _), PyM.run_bind_of_ok (PyM.run_modify _ _),
      PyM.run_tryFinally_of_ok (PyM.run_modify _ _)]
    exact PyM.mapState_ne_error (hooks_neverRaises cfg 0 hooks _)

/-- No assertion fails in the body of a pass. -/
theorem runBody_ne_assertionError (p : Pass) {s s' : RecorderState}
    (hs : s.currentLayerIdx = none) :
    (RecorderState.runBody cfg p).run s ≠ .error .assertionError s' := by
  -- induction over the blocks, each of which leaves the layer index unset for the next
  suffices key : ∀ (blocks : List Block) (s : RecorderState), s.currentLayerIdx = none →
      ∀ s', (blocks.forM (RecorderState.runBlock cfg)).run s ≠ .error .assertionError s' by
    rw [RecorderState.runBody]
    cases hr : (p.blocks.forM (RecorderState.runBlock cfg)).run s with
    | ok a t =>
      rw [PyM.run_bind_of_ok hr]
      cases p.raises <;> simp
    | error e t =>
      rw [PyM.run_bind_of_error hr, ← hr]
      exact key p.blocks s hs s'
  intro blocks
  induction blocks with
  | nil => intro s _ s' h; cases h
  | cons block blocks ih =>
    intro s hs s'
    change (RecorderState.runBlock cfg block >>= fun _ =>
      blocks.forM (RecorderState.runBlock cfg)).run s ≠ _
    cases hr : (RecorderState.runBlock cfg block).run s with
    | ok a t =>
      have hframe := PyM.Preserves.of_run (runBlock_frame cfg block) hr
      rw [PyM.run_bind_of_ok hr]
      exact ih t (hframe.layerIdx.trans hs) s'
    | error e t =>
      rw [PyM.run_bind_of_error hr, ← hr]
      exact runBlock_ne_assertionError cfg block hs

/-! ## Every call -/

/-- What a call replies: a dump has the pending passes, and only a pass whose body raised reports an
exception, which is no failed assertion. -/
def ReplyOk (i : Ideal) : Op → Reply → Prop
  | .startRecord, r => r = .done
  | .stopRecord, r => r = .done
  | .dumpRecord, r => ∃ d, r = .dump d ∧ d.records.map (·.forwardPassId) = i.pending
  | .getStatus, r => ∃ st, r = .status st
  | .forwardPass _, r => r = .done ∨ ∃ e, r = .raised e ∧ e ≠ .assertionError

theorem raised_of_replyOk {i : Ideal} {op : Op} {e : Error} (h : ReplyOk i op (.raised e)) :
    e ≠ .assertionError ∧ ∃ p, op = .forwardPass p := by
  cases op with
  | forwardPass p =>
    obtain hdone | ⟨e', he', hne⟩ := h
    · cases hdone
    · cases he'
      exact ⟨hne, p, rfl⟩
  | dumpRecord =>
    obtain ⟨d, hd, -⟩ := h
    cases hd
  | getStatus =>
    obtain ⟨st, hst⟩ := h
    cases hst
  | startRecord => cases h
  | stopRecord => cases h

/-- The passes of an operation have a token. -/
def Op.HasTokens : Op → Prop
  | .forwardPass p => p.batch.inputIds ≠ []
  | _ => True

/-- The step lemma: a call is simulated by the ideal recorder, and its reply is as it should be. -/
theorem step_sim {s : RecorderState} {i : Ideal} {op : Op} (hsim : Sim s i) (htok : op.HasTokens) :
    Sim (step cfg s op).1 (i.step op) ∧ ReplyOk i op (step cfg s op).2 := by
  obtain ⟨hrec, hpend, hpass, hlayer, hdim1, hdim2⟩ := hsim
  cases op with
  | startRecord =>
    rw [step, run_startRecord hlayer]
    exact ⟨⟨rfl, rfl, hpass, hlayer, hdim1, hdim2⟩, rfl⟩
  | stopRecord => exact ⟨⟨rfl, hpend, hpass, hlayer, hdim1, hdim2⟩, rfl⟩
  | dumpRecord =>
    rw [step, run_dumpRecord cfg hlayer]
    exact ⟨⟨hrec, rfl, hpass, hlayer, hdim1, hdim2⟩, _, rfl, hpend⟩
  | getStatus =>
    obtain ⟨st, hst⟩ := run_getStatus cfg s
    rw [step, hst]
    exact ⟨⟨hrec, hpend, hpass, hlayer, hdim1, hdim2⟩, _, rfl⟩
  | forwardPass p =>
    have hsim : Sim s i := ⟨hrec, hpend, hpass, hlayer, hdim1, hdim2⟩
    obtain ⟨s', hsim', hrun⟩ := run_withForwardPass cfg hsim htok
    have hlayer' : (passStart p s).currentLayerIdx = none := by
      simp only [passStart]
      split <;> exact hlayer
    rw [step, hrun]
    cases hbody : (RecorderState.runBody cfg p).run (passStart p s) with
    | ok a t => exact ⟨hsim', Or.inl rfl⟩
    | error e t =>
      refine ⟨hsim', Or.inr ⟨e, rfl, ?_⟩⟩
      rintro rfl
      exact runBody_ne_assertionError cfg p hlayer' hbody

/-- The run lemma: a whole run is simulated. -/
theorem run_sim {s : RecorderState} {i : Ideal} {ops : List Op} (hsim : Sim s i)
    (htok : ∀ op ∈ ops, op.HasTokens) : Sim (run cfg s ops).1 (ops.foldl Ideal.step i) := by
  induction ops generalizing s i with
  | nil => exact hsim
  | cons op ops ih =>
    exact ih (step_sim cfg hsim (htok op (by simp))).1 fun o ho => htok o (by simp [ho])

theorem run_append (s : RecorderState) (ops ops' : List Op) :
    run cfg s (ops ++ ops') =
      ((run cfg (run cfg s ops).1 ops').1,
        (run cfg s ops).2 ++ (run cfg (run cfg s ops).1 ops').2) := by
  induction ops generalizing s with
  | nil => rfl
  | cons op ops ih => simp only [List.cons_append, run, ih]

theorem length_run (s : RecorderState) (ops : List Op) : (run cfg s ops).2.length = ops.length := by
  induction ops generalizing s with
  | nil => rfl
  | cons op ops ih => simp only [run, List.length_cons, ih]

/-- The reply of the call after `h`. -/
theorem getElem?_run (s : RecorderState) (h : List Op) (op : Op) (t : List Op) :
    (run cfg s (h ++ op :: t)).2[h.length]? = some (step cfg (run cfg s h).1 op).2 := by
  rw [run_append, ← length_run cfg s h, List.getElem?_append_right le_rfl, Nat.sub_self]
  rfl

end

/-! ## The passes a dump returns -/

/-- The operations that empty the list of pending passes. -/
def Op.isReset : Op → Bool
  | .startRecord | .dumpRecord => true
  | _ => false

/-- Whether recording is on after a history: its last start or stop is a start. -/
def recordingOn (h : List Op) : Bool :=
  h.foldl (fun on op => match op with
    | .startRecord => true
    | .stopRecord => false
    | _ => on) false

/-- The id of the pass at position `n` of a history, if it ran while recording was on and there is no
start and no dump after it. -/
def pendingAt (h : List Op) (n : ℕ) : Option ℕ :=
  match h[n]? with
  | some (.forwardPass p) =>
    if recordingOn (h.take n) && (h.drop (n + 1)).all (!·.isReset) then some p.forwardPassId
    else none
  | _ => none

/-- The passes that ran while recording was on since the most recent start or dump, in execution
order. -/
def passesSinceReset (h : List Op) : List ℕ := (List.range h.length).filterMap (pendingAt h)

theorem recordingOn_eq_ideal (h : List Op) :
    recordingOn h = (h.foldl Ideal.step .init).recording := by
  induction h using List.reverseRecOn with
  | nil => rfl
  | append_singleton h op ih =>
    rw [recordingOn, List.foldl_append, List.foldl_append, ← recordingOn, ih]
    cases op with
    | forwardPass p =>
      simp only [List.foldl_cons, List.foldl_nil, Ideal.step]
      split <;> rfl
    | _ => rfl

/-- Appending an operation drops all earlier passes if it is a start or a dump, else none. -/
theorem pendingAt_append_of_lt {h : List Op} {n : ℕ} (op : Op) (hn : n < h.length) :
    pendingAt (h ++ [op]) n = if op.isReset then none else pendingAt h n := by
  unfold pendingAt
  rw [List.getElem?_append_left hn, List.take_append_of_le_length hn.le,
    List.drop_append_of_le_length hn, List.all_append]
  cases h[n]? with
  | none => simp
  | some o =>
    cases o with
    | forwardPass p => cases hop : op.isReset <;> simp [hop]
    | _ => simp

/-- The appended operation itself is pending if it is a pass and recording is on. -/
theorem pendingAt_append_self (h : List Op) (op : Op) :
    pendingAt (h ++ [op]) h.length =
      match op with
      | .forwardPass p => if recordingOn h then some p.forwardPassId else none
      | _ => none := by
  unfold pendingAt
  rw [List.getElem?_concat_length, List.take_left, List.drop_of_length_le (by simp)]
  cases op <;> simp

theorem passesSinceReset_append (h : List Op) (op : Op) :
    passesSinceReset (h ++ [op]) =
      (if op.isReset then [] else passesSinceReset h) ++
        (match op with
          | .forwardPass p => if recordingOn h then some p.forwardPassId else none
          | _ => none).toList := by
  have hold : (List.range h.length).filterMap (pendingAt (h ++ [op])) =
      if op.isReset then [] else passesSinceReset h := by
    rw [List.filterMap_congr (g := fun n => if op.isReset then none else pendingAt h n) fun n hn =>
      pendingAt_append_of_lt op (List.mem_range.mp hn)]
    split <;> simp [passesSinceReset]
  rw [passesSinceReset, List.length_append, List.length_singleton, List.range_succ,
    List.filterMap_append, hold, List.filterMap_cons, List.filterMap_nil, pendingAt_append_self]
  cases op with
  | forwardPass p => cases recordingOn h <;> rfl
  | _ => rfl

/-- The ideal recorder holds the passes since the last start or dump. -/
theorem passesSinceReset_eq_pending (h : List Op) :
    passesSinceReset h = (h.foldl Ideal.step .init).pending := by
  induction h using List.reverseRecOn with
  | nil => rfl
  | append_singleton h op ih =>
    rw [passesSinceReset_append, ih, recordingOn_eq_ideal, List.foldl_append, List.foldl_cons,
      List.foldl_nil]
    cases op with
    | forwardPass p =>
      cases hon : (h.foldl Ideal.step .init).recording <;> simp [Op.isReset, Ideal.step, hon]
    | _ => simp [Op.isReset, Ideal.step]

/-- Control calls outside any layer keep the records, or drop them all. -/
theorem records_run_control (cfg : RecorderConfig) {s : RecorderState} {ops : List Op}
    (hlayer : s.currentLayerIdx = none) (hctl : ∀ op ∈ ops, ∀ p, op ≠ .forwardPass p) :
    (run cfg s ops).1.records = if ops.any (·.isReset) then [] else s.records := by
  induction ops generalizing s with
  | nil => rfl
  | cons op ops ih =>
    have hstep : (step cfg s op).1.currentLayerIdx = none ∧
        (step cfg s op).1.records = if op.isReset then [] else s.records := by
      cases op with
      | startRecord =>
        rw [step, run_startRecord hlayer]
        exact ⟨hlayer, rfl⟩
      | stopRecord => exact ⟨hlayer, rfl⟩
      | dumpRecord =>
        rw [step, run_dumpRecord cfg hlayer]
        exact ⟨hlayer, rfl⟩
      | getStatus =>
        rw [step_getStatus]
        exact ⟨hlayer, rfl⟩
      | forwardPass p => exact absurd rfl (hctl _ (by simp) p)
    have hrest := ih hstep.1 fun o ho => hctl o (by simp [ho])
    rw [run, hrest, hstep.2, List.any_cons]
    cases op.isReset <;> simp

/-- **Recorder run exactness.** In every run of control calls and passes with at least one token: only a
pass whose body raised reports an exception, and no assertion fails; every dump returns the passes that
ran while recording was on since the most recent start or dump, once each and in execution order; and
neither stopping nor asking for the status changes what a dump returns, be it at once or after further
control calls. -/
theorem run_dump_exact (cfg : RecorderConfig) (ops : List Op) (htok : ∀ op ∈ ops, op.HasTokens) :
    (∀ h op t, ops = h ++ op :: t → ∀ e, (run cfg (.init cfg) ops).2[h.length]? = some (.raised e) →
      e ≠ .assertionError ∧ ∃ p, op = .forwardPass p) ∧
    (∀ h t, ops = h ++ .dumpRecord :: t →
      ∃ d, (run cfg (.init cfg) ops).2[h.length]? = some (.dump d) ∧
        d.records.map (·.forwardPassId) = passesSinceReset h) ∧
    (∀ h op t t', ops = h ++ op :: (t ++ t') → op = .stopRecord ∨ op = .getStatus →
      (∀ o ∈ t, ∀ p, o ≠ .forwardPass p) →
      (run cfg (.init cfg) (h ++ op :: t)).1.dump cfg = (run cfg (.init cfg) (h ++ t)).1.dump cfg) ∧
    (∀ h t, ops = h ++ .getStatus :: t →
      run cfg (run cfg (.init cfg) (h ++ [.getStatus])).1 t = run cfg (run cfg (.init cfg) h).1 t) := by
  have hreply : ∀ h op t, ops = h ++ op :: t →
      Sim (run cfg (.init cfg) h).1 (h.foldl Ideal.step .init) ∧
      (run cfg (.init cfg) ops).2[h.length]? =
        some (step cfg (run cfg (.init cfg) h).1 op).2 ∧
      ReplyOk (h.foldl Ideal.step .init) op (step cfg (run cfg (.init cfg) h).1 op).2 := by
    rintro h op t rfl
    have hsim := run_sim cfg (sim_init cfg) (fun o ho => htok o (by simp [ho]) : ∀ o ∈ h, o.HasTokens)
    exact ⟨hsim, getElem?_run cfg _ h op t, (step_sim cfg hsim (htok op (by simp))).2⟩
  refine ⟨?_, ?_, ?_, ?_⟩
  · intro h op t hops e he
    obtain ⟨-, hget, hok⟩ := hreply h op t hops
    rw [hget, Option.some.injEq] at he
    rw [he] at hok
    exact raised_of_replyOk hok
  · intro h t hops
    obtain ⟨-, hget, d, hd, hids⟩ := hreply h .dumpRecord t hops
    exact ⟨d, hd ▸ hget, by rw [hids, passesSinceReset_eq_pending]⟩
  · intro h op t t' hops hop hctl
    have hlayer := (hreply h op (t ++ t') hops).1.layerIdx
    have hctl' : ∀ o ∈ op :: t, ∀ p, o ≠ .forwardPass p := by
      intro o ho p
      rcases List.mem_cons.mp ho with rfl | ho
      · rcases hop with rfl | rfl <;> simp
      · exact hctl o ho p
    rw [RecorderState.dump, RecorderState.dump, run_append, run_append,
      records_run_control cfg hlayer hctl', records_run_control cfg hlayer hctl, List.any_cons]
    rcases hop with rfl | rfl <;> rfl
  · intro h t _
    rw [run_append]
    exact congrArg (run cfg · t) (step_getStatus cfg _)

/-- A model of one layer and two experts. -/
def sampleConfig : RecorderConfig where
  numLayers := 1
  numLogicalExperts := 2
  numPhysicalExperts := 2
  physicalToLogicalMap := [[0, 1]]
  rank := 0
  chunkedPrefillSize := 1
  chunk_pos := by decide

/-- A pass of one token. -/
def samplePass (forwardPassId : ℕ) (raises : Option String) : Pass :=
  { forwardPassId, batch := { inputIds := [7] }, raises }

/-- A run that records two passes, one of which raises, and passes over a third. -/
def sampleOps : List Op :=
  [.startRecord, .forwardPass (samplePass 1 none), .forwardPass (samplePass 2 (some "oom")),
    .stopRecord, .forwardPass (samplePass 3 none), .getStatus]

theorem run_dump_exact_sample :
    ∃ d, (run sampleConfig (.init sampleConfig) (sampleOps ++ [.dumpRecord])).2[6]? = some (.dump d) ∧
      d.records.map (·.forwardPassId) = [1, 2] := by
  have htok : ∀ op ∈ sampleOps ++ [.dumpRecord], op.HasTokens := by
    simp [sampleOps, samplePass, Op.HasTokens]
  exact (run_dump_exact sampleConfig (sampleOps ++ [.dumpRecord]) htok).2.1 sampleOps [] rfl

end MoeSpecialization.Recorder
