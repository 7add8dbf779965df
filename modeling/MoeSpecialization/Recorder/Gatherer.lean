import MoeSpecialization.Common.PyM
import MoeSpecialization.Common.Tensor

/-!
# The per-token gatherer of one forward pass

Reference: `_DetailSinglePassGatherer` and `_convert_per_token_to_global_physical_count` in
`sglang/srt/eplb/expert_distribution.py`.

The gatherer owns three padded buffers `[layer][token][slot]` that live as long as the server. A pass
resets them, `on_select_experts` writes the rows of one layer and widens the buffers when the router
emits more slots than they hold, and `collect` cuts the first `num_tokens` rows out of them.

Python lists are objects: `_misc_objects` is one list for the life of the gatherer, and a collected pass
holds a reference to it. It is kept as an address `MiscRef` into a store of lists.
-/

namespace MoeSpecialization.Recorder

open Py

/-- `ForwardMode`. -/
inductive ForwardMode where
  | extend | decode | mixed | idle | targetVerify | draftExtend | draftExtendV2 | prebuilt
  | splitPrefill | dllmExtend
deriving DecidableEq

/-- What the recorder reads of `ForwardBatch`. -/
structure ForwardBatch where
  inputIds : List ℤ
  positions : List ℤ := []
  extendSeqLensCpu : Option (List ℕ) := none
  forwardMode : ForwardMode := .extend
deriving DecidableEq

/-- The model and the server arguments the recorder is built for. The buffers have
`chunked_prefill_size * 8` rows, so the chunk size is positive. -/
structure RecorderConfig where
  numLayers : ℕ
  numLogicalExperts : ℕ
  numPhysicalExperts : ℕ
  physicalToLogicalMap : List (List ℕ)
  rank : ℕ
  chunkedPrefillSize : ℕ
  chunk_pos : 0 < chunkedPrefillSize

/-- An entry of `_misc_objects`. -/
structure MiscObject where
  layerId : ℕ
  numTokensPerRank : List ℕ
  numTokensPerRdmaRank : List ℕ
  numTokensPerExpert : List ℕ
deriving DecidableEq

/-- The address of a list object. -/
abbrev MiscRef := ℕ

/-- The list objects by address. -/
abbrev MiscStore := MiscRef → List MiscObject

/-- The data `collect` returns for one pass. -/
structure SinglePassData where
  inputIds : List ℤ
  positions : List ℤ
  extendSeqLens : Option (List ℕ)
  forwardMode : ForwardMode
  topkIdsOfLayer : List (List (List ℤ))
  routerLogitsOfLayer : List (List (List ℚ))
  topkWeightsOfLayer : List (List (List ℚ))
  miscObjects : MiscRef
  globalPhysicalCount : List (List ℕ)
deriving DecidableEq

/-- `_DetailSinglePassGatherer`. -/
structure Gatherer where
  metadata : Option ForwardBatch
  topkIdsOfLayer : Tensor3 ℤ
  routerLogitsOfLayer : Tensor3 ℚ
  topkWeightsOfLayer : Tensor3 ℚ
  miscObjects : MiscRef
  store : MiscStore

/-- `_TOP_K_NUM`. -/
def topKNum : ℕ := 8

namespace Gatherer

variable (cfg : RecorderConfig)

/-- `__init__`. -/
def init : Gatherer where
  metadata := none
  topkIdsOfLayer := .full cfg.numLayers (cfg.chunkedPrefillSize * 8) topKNum 0
  routerLogitsOfLayer := .full cfg.numLayers (cfg.chunkedPrefillSize * 8) cfg.numLogicalExperts 0
  topkWeightsOfLayer := .full cfg.numLayers (cfg.chunkedPrefillSize * 8) topKNum 0
  miscObjects := 0
  store := fun _ => []

/-- `reset`. The list of miscellaneous objects is emptied in place. -/
def reset (g : Gatherer) : Gatherer where
  metadata := none
  topkIdsOfLayer := g.topkIdsOfLayer.fill (-1)
  routerLogitsOfLayer := g.routerLogitsOfLayer.fill 0
  topkWeightsOfLayer := g.topkWeightsOfLayer.fill 0
  miscObjects := g.miscObjects
  store := Function.update g.store g.miscObjects []

/-- `on_forward_pass_start`. -/
def onForwardPassStart (batch : ForwardBatch) : PyM Gatherer Unit := do
  let g ← get
  PyM.check g.metadata.isNone
  modify fun g => { g with metadata := some batch }

/-- The reallocation for a wider top-k: ids and weights are copied, the logits buffer is a fresh one. -/
def grow (actualTopK : ℕ) (g : Gatherer) : Gatherer :=
  if g.topkIdsOfLayer.dim2 < actualTopK then
    { g with
      topkIdsOfLayer := g.topkIdsOfLayer.widen actualTopK 0
      routerLogitsOfLayer :=
        .full cfg.numLayers g.routerLogitsOfLayer.dim1 cfg.numLogicalExperts 0
      topkWeightsOfLayer := g.topkWeightsOfLayer.widen actualTopK 0 }
  else g

/-- `self._topk_ids_of_layer[layer_idx, :rows, :cols] = topk_ids`. -/
def writeTopkIds (layerIdx : ℕ) (topkIds : Mat ℤ) : PyM Gatherer Unit := do
  let g ← get
  let t ← PyM.ofExcept (g.topkIdsOfLayer.setBlock layerIdx topkIds)
  set { g with topkIdsOfLayer := t }

/-- The recording of router logits. Logits wider than their buffer are not recorded. -/
def writeRouterLogits (layerIdx : ℕ) (routerLogits : Mat ℚ) : PyM Gatherer Unit := do
  let g ← get
  if routerLogits.cols ≤ g.routerLogitsOfLayer.dim2 then
    let t ← PyM.ofExcept (g.routerLogitsOfLayer.setBlock layerIdx routerLogits)
    set { g with routerLogitsOfLayer := t }

/-- The recording of top-k weights. -/
def writeTopkWeights (layerIdx : ℕ) (topkWeights : Mat ℚ) : PyM Gatherer Unit := do
  let g ← get
  let t ← PyM.ofExcept (g.topkWeightsOfLayer.setBlock layerIdx topkWeights)
  set { g with topkWeightsOfLayer := t }

/-- `on_select_experts`. -/
def onSelectExperts (layerIdx : ℕ) (topkIds : Mat ℤ) (routerLogits topkWeights : Option (Mat ℚ)) :
    PyM Gatherer Unit := do
  modify (grow cfg topkIds.cols)
  writeTopkIds layerIdx topkIds
  routerLogits.toList.forM (writeRouterLogits layerIdx)
  topkWeights.toList.forM (writeTopkWeights layerIdx)

/-- `on_deepep_dispatch_normal`: the list object grows in place. -/
def onDeepepDispatchNormal (obj : MiscObject) : PyM Gatherer Unit :=
  modify fun g => { g with
    store := Function.update g.store g.miscObjects (g.store g.miscObjects ++ [obj]) }

/-- The count of one layer. The maximum of an empty tensor raises. -/
def countLayer (numTokens numPhysicalExperts : ℕ) (topkIds : Tensor3 ℤ) (layerIdx : ℕ) :
    Except Error (List ℕ) :=
  let topkIdsFlat := (topkIds.layerRows numTokens layerIdx).flatten
  if topkIdsFlat = [] then .error (.runtimeError "max(): Expected reduction dim to be specified")
  else
    let validIndices := (topkIdsFlat.filter fun e : ℤ =>
      e ≠ -1 ∧ 0 ≤ e ∧ e < numPhysicalExperts).map Int.toNat
    .ok (scatterAddOnes (List.replicate numPhysicalExperts 0) validIndices)

/-- `_convert_per_token_to_global_physical_count`. -/
def convertPerTokenToGlobalPhysicalCount (numTokens numLayers numPhysicalExperts : ℕ)
    (topkIds : Tensor3 ℤ) : Except Error (List (List ℕ)) :=
  (List.range numLayers).mapM (countLayer numTokens numPhysicalExperts topkIds)

/-- `collect`. Without metadata the subscript raises. -/
def collect (g : Gatherer) : Except Error SinglePassData :=
  match g.metadata with
  | none => .error .typeError
  | some batch => do
    let numTokens := batch.inputIds.length
    let count ← convertPerTokenToGlobalPhysicalCount numTokens cfg.numLayers
      cfg.numPhysicalExperts g.topkIdsOfLayer
    .ok { inputIds := batch.inputIds
          positions := batch.positions
          extendSeqLens := batch.extendSeqLensCpu
          forwardMode := batch.forwardMode
          topkIdsOfLayer := g.topkIdsOfLayer.takeRows numTokens
          routerLogitsOfLayer := g.routerLogitsOfLayer.takeRows numTokens
          topkWeightsOfLayer := g.topkWeightsOfLayer.takeRows numTokens
          miscObjects := g.miscObjects
          globalPhysicalCount := count }

end Gatherer

end MoeSpecialization.Recorder
