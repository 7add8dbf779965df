import MoeSpecialization.Recorder.Gatherer

/-!
# The expert-distribution recorder in per-token mode

Reference: `_ExpertDistributionRecorderReal` and `_DetailAccumulator` in
`sglang/srt/eplb/expert_distribution.py`, `Withable` in `sglang/srt/utils/common.py`.

Utilization metrics are off, so the recorder does not start by itself and the accumulator is its list of
records. A forward pass is the batch it runs on, what its body does (blocks of hook calls, each inside
`with_current_layer` or `disable_this_region`), and the exception that ends the body, if any.
-/

namespace MoeSpecialization.Recorder

open Py

/-- One entry of `_DetailAccumulator._records`. -/
structure PassRecord extends SinglePassData where
  forwardPassId : ℕ
  rank : ℕ
  gathererKey : String
deriving DecidableEq

/-- What `dump` returns for `output_mode="object"`. -/
structure Dump where
  records : List PassRecord
  lastPhysicalToLogicalMap : List (List ℕ)
deriving DecidableEq

/-- What `get_status` returns. -/
structure Status where
  recording : Bool
  data : Option Dump
  message : String
deriving DecidableEq

/-- `_ExpertDistributionRecorderReal`. -/
structure RecorderState where
  recording : Bool
  disableAll : Bool
  currentForwardPassId : Option ℕ
  currentLayerIdx : Option ℕ
  records : List PassRecord
  gatherer : Gatherer

/-- A hook call of the model code. `capturing` is `is_current_stream_capturing()` at that point. -/
inductive Hook where
  | selectExperts (topkIds : Mat ℤ) (routerLogits topkWeights : Option (Mat ℚ)) (capturing : Bool)
  | deepepDispatchNormal (numTokensPerRank numTokensPerRdmaRank numTokensPerExpert : List ℕ)
      (capturing : Bool)
  | deepepDispatchLowLatency (capturing : Bool)

/-- A block of the body of a forward pass. -/
inductive Block where
  | layer (layerIdx : ℕ) (hooks : List Hook)
  | disabledRegion (hooks : List Hook)

/-- A forward pass. `raises` is the message of the exception that ends its body. -/
structure Pass where
  forwardPassId : ℕ
  batch : ForwardBatch
  blocks : List Block := []
  raises : Option String := none

namespace RecorderState

variable (cfg : RecorderConfig)

/-- `__init__`. -/
def init : RecorderState where
  recording := false
  disableAll := false
  currentForwardPassId := none
  currentLayerIdx := none
  records := []
  gatherer := .init cfg

/-- Replace the gatherer. -/
def setGatherer (g : Gatherer) (s : RecorderState) : RecorderState := { s with gatherer := g }

/-- Set `_current_forward_pass_id`. -/
def setForwardPassId (v : Option ℕ) (s : RecorderState) : RecorderState :=
  { s with currentForwardPassId := v }

/-- Set `_current_layer_idx`. -/
def setLayerIdx (v : Option ℕ) (s : RecorderState) : RecorderState :=
  { s with currentLayerIdx := v }

/-- A statement of the gatherer. -/
def onGatherer (x : PyM Gatherer Unit) : PyM RecorderState Unit :=
  PyM.zoom gatherer setGatherer x

/-! ## Hooks -/

/-- The call of a hook on the gatherer. -/
def callHook (layerIdx : ℕ) : Hook → PyM Gatherer Unit
  | .selectExperts topkIds routerLogits topkWeights _ =>
    Gatherer.onSelectExperts cfg layerIdx topkIds routerLogits topkWeights
  | .deepepDispatchNormal perRank perRdmaRank perExpert _ =>
    Gatherer.onDeepepDispatchNormal ⟨layerIdx, perRank, perRdmaRank, perExpert⟩
  | .deepepDispatchLowLatency _ => pure ()

/-- Whether the stream is capturing at a hook call. -/
def Hook.capturing : Hook → Bool
  | .selectExperts _ _ _ c | .deepepDispatchNormal _ _ _ c | .deepepDispatchLowLatency c => c

/-- `_on_hook`, inside layer `layerIdx`. -/
def onHook (layerIdx : ℕ) (hook : Hook) : PyM RecorderState Unit := do
  let s ← get
  if s.disableAll then pure ()
  else if !(s.recording || Hook.capturing hook) then pure ()
  else onGatherer (callHook cfg layerIdx hook)

/-- `with_current_layer`. -/
def withCurrentLayer (layerIdx : ℕ) (body : PyM RecorderState Unit) : PyM RecorderState Unit :=
  PyM.withValue currentLayerIdx setLayerIdx layerIdx body

/-- `disable_this_region`. -/
def disableThisRegion (body : PyM RecorderState Unit) : PyM RecorderState Unit := do
  let s ← get
  modify fun s => { s with disableAll := true }
  PyM.tryFinally body (modify fun s' => { s' with disableAll := s.disableAll })

/-- A block of the body. -/
def runBlock : Block → PyM RecorderState Unit
  | .layer layerIdx hooks => withCurrentLayer layerIdx (hooks.forM (onHook cfg layerIdx))
  | .disabledRegion hooks => disableThisRegion (hooks.forM (onHook cfg 0))

/-- The body of a pass. -/
def runBody (p : Pass) : PyM RecorderState Unit := do
  p.blocks.forM (runBlock cfg)
  match p.raises with
  | none => pure ()
  | some msg => throw (.runtimeError msg)

/-! ## Forward passes -/

/-- `_on_forward_pass_start`. -/
def onForwardPassStart (batch : ForwardBatch) : PyM RecorderState Unit := do
  let s ← get
  if s.recording then
    onGatherer (modify Gatherer.reset)
    onGatherer (Gatherer.onForwardPassStart batch)

/-- `_DetailAccumulator.append`. -/
def append (forwardPassId : ℕ) (data : SinglePassData) (s : RecorderState) : RecorderState :=
  { s with records := s.records ++
      [{ data with forwardPassId, rank := cfg.rank, gathererKey := "primary" }] }

/-- `_on_forward_pass_end`. -/
def onForwardPassEnd (forwardPassId : ℕ) : PyM RecorderState Unit := do
  let s ← get
  if s.recording then
    let data ← PyM.ofExcept (s.gatherer.collect cfg)
    modify (append cfg forwardPassId data)

/-- `with_forward_pass` around the body of a pass. -/
def withForwardPass (p : Pass) : PyM RecorderState Unit :=
  PyM.withValue currentForwardPassId setForwardPassId p.forwardPassId do
    onForwardPassStart p.batch
    PyM.tryFinally (runBody cfg p) (onForwardPassEnd cfg p.forwardPassId)

/-! ## Control -/

/-- `_reset`. -/
def reset : PyM RecorderState Unit := do
  let s ← get
  PyM.check s.currentLayerIdx.isNone
  onGatherer (modify Gatherer.reset)
  modify fun s => { s with records := [] }

/-- `start_record`. -/
def startRecord : PyM RecorderState Unit := do
  reset
  modify fun s => { s with recording := true }

/-- `stop_record`. -/
def stopRecord : PyM RecorderState Unit := modify fun s => { s with recording := false }

/-- `_DetailAccumulator.dump`: a copy of the record list. -/
def dump (s : RecorderState) : Dump := ⟨s.records, cfg.physicalToLogicalMap⟩

/-- `dump_record(output_mode="object")`. -/
def dumpRecord : PyM RecorderState Dump := do
  let s ← get
  reset
  pure (s.dump cfg)

/-- `get_status(output_mode="object")`. -/
def getStatus : PyM RecorderState Status := do
  let s ← get
  if s.recording then
    pure ⟨true, some (s.dump cfg), "Currently recording expert distribution"⟩
  else pure ⟨false, none, "Not currently recording"⟩

end RecorderState

end MoeSpecialization.Recorder
