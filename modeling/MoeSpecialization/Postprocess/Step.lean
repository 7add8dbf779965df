import MoeSpecialization.Postprocess.Streaming

/-!
# The postprocessing step

Reference: `create_heatmap_data`, `save_statistics` and `main` in
`metric/postprocess/postprocessing_for_image_and_count.py`, `run_postprocess` in
`metric/script/run_all_metrics.sh`.

The shell runs `main` on every sub-directory of a first-level directory, in the order of its glob. Every
call writes to the one directory `expert_statistics`, which is a sub-directory itself once it exists: it
is not in a glob that was expanded before it was made, and in every later one it is. One of the files
written there is a JSON file, so `main` accepts the directory as a folder of records.
-/

namespace MoeSpecialization.Postprocess

open Py

/-! ## The outputs of one call -/

/-- `create_heatmap_data`. The loops fill a matrix of zeros; entry `(l, e)` is the count of expert `e` on
layer `l`, if there is one. -/
def createHeatmapData (layerExpertCounts : PyDict ℕ (PyDict ℤ ℕ)) (numLayers maxExperts : Option ℕ) :
    List (List ℕ) :=
  let numLayers := numLayers.getD ((layerExpertCounts.keys.max?.map (· + 1)).getD 1)
  let maxExpertId := layerExpertCounts.values.foldl
    (fun m layerData => max m ((layerData.keys.max?).getD 0)) 0
  let maxExperts := maxExperts.getD (maxExpertId + 1).toNat
  (List.range numLayers).map fun l =>
    (List.range maxExperts).map fun e : ℕ => (layerExpertCounts.getD l ∅).getD (e : ℤ) 0

/-- The files under `expert_statistics` that are read by later steps: `results_all.jsonl`,
`expert_selection_counts.csv` and `expert_statistics.json`. -/
structure Outputs where
  resultsAll : OutputFile := none
  expertSelectionCounts : Option (List (List ℕ)) := none
  expertStatistics : Option ExpertTotals := none
deriving DecidableEq

/-- What a call of `main` writes after streaming over its folder. -/
def StreamState.outputs (s : StreamState) : Outputs where
  resultsAll := s.outputFile
  expertSelectionCounts := some (createHeatmapData s.totals.layerExpertCounts none none)
  expertStatistics := some s.totals

/-! ## The calls of the step -/

/-- What all calls of the step share: the name of the output directory, the paths of the
sub-directories, what `load_inference_results` returns for `merged_test_val.jsonl`, and the tokenizer. -/
structure StepEnv (ν : Type) where
  expertStatistics : ν
  path : ν → String
  inferenceResults : Except Error (List InferenceResult)
  tokenizer : Option Tokenizer

/-- A first-level directory: its sub-directories with their JSON files, and the output files. Names are
ordered as the shell sorts a glob. -/
structure FirstLevelDir (ν : Type) where
  subdirs : PyDict ν Folder
  outputs : Outputs := {}

section

variable {ν : Type} [LinearOrder ν] (env : StepEnv ν)

namespace FirstLevelDir

/-- The JSON files of a sub-directory. -/
def folder (s : FirstLevelDir ν) (name : ν) : Folder := s.subdirs.getD name ∅

/-- `os.makedirs(output_dir, exist_ok=True)`. -/
def makeOutputDir (s : FirstLevelDir ν) : FirstLevelDir ν :=
  { s with subdirs := s.subdirs.modify env.expertStatistics ∅ id }

/-- The outputs are written. `expert_statistics.json` is a JSON file without `records`. -/
def save (out : Outputs) (s : FirstLevelDir ν) : FirstLevelDir ν where
  subdirs := s.subdirs.modify env.expertStatistics ∅ (·.set "expert_statistics.json" (.ok {}))
  outputs := out

/-- `main` with `--expert_data_file` a sub-directory and `--output_base_dir` the directory itself. -/
def main (name : ν) : PyM (FirstLevelDir ν) Unit := do
  modify (makeOutputDir env)
  let inferenceResults ← PyM.ofExcept env.inferenceResults
  let info ← PyM.ofExcept (prepareTokenInfo inferenceResults none)
  let s ← get
  let run ← PyM.ofExcept (processFilesStreaming (env.path name) (s.folder name) info env.tokenizer
    (getEosTokenIds env.tokenizer))
  modify (save env run.outputs)

/-- `"${first_level_dir}"/*`, restricted to directories. -/
def glob (s : FirstLevelDir ν) : List ν := s.subdirs.keys.insertionSort (· ≤ ·)

/-- `run_postprocess` on one first-level directory: a call that fails is reported, and the loop goes
on. -/
def runPostprocess (s : FirstLevelDir ν) : FirstLevelDir ν :=
  s.glob.foldl (fun s name => (PyM.exec (main env name) s).1) s

end FirstLevelDir

end

end MoeSpecialization.Postprocess
