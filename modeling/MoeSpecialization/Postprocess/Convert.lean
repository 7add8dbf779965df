import MoeSpecialization.Postprocess.Record
import MoeSpecialization.Common.PyM
import Mathlib.Algebra.Order.Field.Rat

/-!
# Conversion of an aligned record to its output line

Reference: `convert_record_to_output_format` and `save_results_jsonl`.

Only the first row of each layer is converted. A slot is kept when its expert id is a number in
`[0, 256)`; its weight is kept next to it, and its logit is looked up by expert id in a full logit row,
or by slot in a short one. The strongest logit outside the kept ids is stored beside them. A layer with
no kept slot is left out.
-/

namespace MoeSpecialization.Postprocess

open Py

/-- The data of one layer of an output line. A weight that is not a number is `none`. -/
structure LayerData where
  expertIds : List ℤ := []
  weights : List (Option ℚ) := []
  logits : Option (List ℚ) := none
  nextExpertLogit : Option ℚ := none
deriving DecidableEq

/-- One line of `results_all.jsonl`. -/
structure OutputRecord where
  layers : PyDict String LayerData := ∅
  outputTokenId : Option ℤ := none
  outputToken : Option String := none
  prompt : Option Json := none
  requestId : Option ℕ := none
  tokenIndex : Option ℕ := none
  inputIds : Option (List ℤ) := none
deriving DecidableEq

/-- `float(x)`: `null` is no number. -/
def pyFloat : Option ℚ → Except Error ℚ
  | some q => .ok q
  | none => .error .typeError

/-- The filter on expert ids, `-1` and ids past the fixed bound being left out. -/
def isValidExpert (expertId : ℤ) : Bool := 0 ≤ expertId && expertId < 256

theorem isValidExpert_iff {expertId : ℤ} :
    isValidExpert expertId = true ↔ 0 ≤ expertId ∧ expertId < 256 := by
  rw [isValidExpert, Bool.and_eq_true, decide_eq_true_eq, decide_eq_true_eq]

/-- The row of `batch[0]`, empty if there is none or it is not a list. -/
def firstRow {α : Type} : LayerRows α → List (Option α)
  | some row :: _ => row
  | _ => []

/-- The three lists the slot loop fills. -/
structure Filtered where
  expertIds : List ℤ := []
  weights : List ℚ := []
  logits : List ℚ := []
deriving DecidableEq

/-- The logit stored for slot `i` holding `expertId`: by expert id, else by slot, else none. -/
def slotLogit (logits : List (Option ℚ)) (i : ℕ) (expertId : ℤ) : Except Error (List ℚ) :=
  if expertId < logits.length then
    (pyFloat (logits.getD expertId.toNat none)).map fun x => [x]
  else if i < logits.length then
    (pyFloat (logits.getD i none)).map fun x => [x]
  else .ok []

/-- The loop over the slots of the first row, from slot `i` on. -/
def filterSlots (logits : List (Option ℚ)) :
    ℕ → List (Option ℤ × Option ℚ) → Except Error Filtered
  | _, [] => .ok {}
  | i, (expertId, weight) :: slots =>
    match expertId with
    | none => filterSlots logits (i + 1) slots
    | some e =>
      if isValidExpert e then do
        let l ← slotLogit logits i e
        let rest ← filterSlots logits (i + 1) slots
        .ok { expertIds := e :: rest.expertIds
              weights := weight.getD 0 :: rest.weights
              logits := l ++ rest.logits }
      else filterSlots logits (i + 1) slots

/-- The logits of the experts that were not kept. -/
def unselectedLogits (logits : List (Option ℚ)) (selected : List ℤ) : Except Error (List ℚ) :=
  ((List.range logits.length).filter fun (idx : ℕ) => (idx : ℤ) ∉ selected).mapM
    fun idx => pyFloat (logits.getD idx none)

/-- The strongest logit outside the kept ids, if there is one. -/
def nextExpertLogit (logits : List (Option ℚ)) (selected : List ℤ) : Except Error (Option ℚ) :=
  if logits = [] ∨ selected = [] then .ok none
  else (unselectedLogits logits selected).map List.max?

/-- The body of the loop over the layers. -/
def convertLayer (topkIds : LayerRows ℤ) (topkWeights routerLogits : LayerRows ℚ) :
    Except Error LayerData := do
  let logits := firstRow routerLogits
  let filtered ← filterSlots logits 0 ((firstRow topkIds).zip (firstRow topkWeights))
  let next ← nextExpertLogit logits filtered.expertIds
  .ok { expertIds := filtered.expertIds
        weights := filtered.weights.map some
        logits := if filtered.logits = [] then none else some filtered.logits
        nextExpertLogit := next }

/-- The data of layer `layerIdx` of a record. -/
def Record.convertLayerAt (record : Record) (layerIdx : ℕ) : Except Error LayerData :=
  convertLayer (record.topkIdsOfLayer.getD layerIdx [])
    (record.topkWeightsOfLayer.getD layerIdx []) (record.routerLogitsOfLayer.getD layerIdx [])

/-- One iteration of the loop over the layers: a layer without kept slots is not stored. -/
def Record.addLayer (record : Record) (layers : PyDict String LayerData) (layerIdx : ℕ) :
    Except Error (PyDict String LayerData) := do
  let layerData ← record.convertLayerAt layerIdx
  if layerData.expertIds = [] then .ok layers else .ok (layers.set (toString layerIdx) layerData)

/-- `convert_record_to_output_format`. -/
def convertRecordToOutputFormat (record : Record) : Except Error OutputRecord := do
  let layers ← (List.range record.topkIdsOfLayer.length).foldlM record.addLayer ∅
  .ok { layers
        outputTokenId := record.outputTokenId
        outputToken := record.outputToken
        prompt := record.prompt
        requestId := record.requestId
        tokenIndex := record.tokenIndex
        inputIds := record.inputIds }

/-- A JSONL file: absent, or its lines. -/
abbrev OutputFile := Option (List OutputRecord)

/-- `save_results_jsonl`: opening the file creates it, and in overwriting mode empties it; then one line
per record. Lines written before a conversion raises stay. -/
def saveResultsJsonl (alignedData : List Record) (appendMode : Bool) : PyM OutputFile Unit := do
  modify fun file => some (if appendMode then file.getD [] else [])
  alignedData.forM fun record => do
    let line ← PyM.ofExcept (convertRecordToOutputFormat record)
    modify fun file => some (file.getD [] ++ [line])

end MoeSpecialization.Postprocess
