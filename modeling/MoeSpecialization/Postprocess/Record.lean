import MoeSpecialization.Common.Json
import MoeSpecialization.Common.PyDict
import Mathlib.Data.List.Sort

/-!
# The data of the postprocessor

Reference: `metric/postprocess/postprocessing_for_image_and_count.py`.

A `Record` is one entry of the `records` list of a dumped expert-distribution file, as a dictionary
with optional keys: alignment adds `output_token_id`, `output_token`, `prompt`, `request_id` and
`token_index` to it. The nested fields have the shape `[layer][row][slot]`; a slot may be `null`, and a
row may be `null` instead of a list. A missing nested field reads as `[]`, the default every reader
asks for.
-/

namespace MoeSpecialization.Postprocess

open Py

/-- A row of a nested field: `none` is `null`, a slot `none` is a `null` slot. -/
abbrev Row (α : Type) := Option (List (Option α))

/-- The rows of one layer. -/
abbrev LayerRows (α : Type) := List (Row α)

/-- One entry of `records`, with the keys that alignment adds. -/
structure Record where
  forwardPassId : Option ℕ := none
  inputIds : Option (List ℤ) := none
  topkIdsOfLayer : List (LayerRows ℤ) := []
  topkWeightsOfLayer : List (LayerRows ℚ) := []
  routerLogitsOfLayer : List (LayerRows ℚ) := []
  outputTokenId : Option ℤ := none
  outputToken : Option String := none
  prompt : Option Json := none
  requestId : Option ℕ := none
  tokenIndex : Option ℕ := none
deriving DecidableEq

/-- One element of `load_inference_results`: a request that produced tokens. -/
structure InferenceResult where
  requestId : ℕ
  tokenIds : List ℤ
  originalData : Json := .obj []
deriving DecidableEq

/-- What the postprocessor uses of a `transformers` tokenizer. -/
structure Tokenizer where
  decode : List ℤ → Except Error String
  eosTokenId : Option ℤ
  padTokenId : Option ℤ

/-- The parsed content of one expert-distribution JSON file. -/
structure ExpertData where
  records : List Record := []
  lastPhysicalToLogicalMap : List (List ℕ) := []
deriving DecidableEq

/-- An expert-distribution file: reading it raises, or gives its data. -/
abbrev ExpertFile := Except Error ExpertData

/-- The `*.json` files of a folder, by file name. -/
abbrev Folder := PyDict String ExpertFile

/-- `sorted(glob.glob(os.path.join(folder, '*.json')))`: the files in the order of their names. -/
def sortedFiles (folder : Folder) : List (String × ExpertFile) :=
  folder.entries.insertionSort fun a b => a.1 ≤ b.1

/-- `get_eos_token_ids`: the EOS and PAD ids of the tokenizer, if it has them. -/
def getEosTokenIds : Option Tokenizer → List ℤ
  | none => []
  | some tokenizer => tokenizer.eosTokenId.toList ++ tokenizer.padTokenId.toList

end MoeSpecialization.Postprocess
