import MoeSpecialization.Postprocess.Align
import MoeSpecialization.Postprocess.Analyze

/-!
# Streaming over the files of a folder

Reference: `_load_expert_distribution_data_from_folder` and `process_files_streaming`.

The one-shot path merges the records of all files and aligns and analyzes them at once. The streaming
path handles one file after the other, carrying a global token index, and catches what a file raises.
`StreamInv` is the invariant of its loop: after the files read so far, the index is the number of their
records, what was aligned is the one-shot alignment of those records, and the dictionaries and counters
are those of one analysis of it. `processFile_inv` carries it over one file whichever of the three
exits that file takes, `foldl_tryFile_inv` over the whole folder.
-/

namespace MoeSpecialization.Postprocess

open Py

/-- The message raised when a folder has no JSON file. -/
def noJsonFiles (dataDir : String) : String := s!"在文件夹 {dataDir} 中未找到任何JSON文件"

/-! ## Merging a folder -/

/-- One iteration of the merging loop: a file that cannot be read is passed over, and the last
non-empty map is kept. -/
def mergeFile (acc : ExpertData) (file : String × ExpertFile) : ExpertData :=
  match file.2 with
  | .error _ => acc
  | .ok data =>
    { records := acc.records ++ data.records
      lastPhysicalToLogicalMap :=
        if data.lastPhysicalToLogicalMap = [] then acc.lastPhysicalToLogicalMap
        else data.lastPhysicalToLogicalMap }

/-- `_load_expert_distribution_data_from_folder`. -/
def loadExpertDistributionDataFromFolder (dataDir : String) (folder : Folder) :
    Except Error ExpertData :=
  if sortedFiles folder = [] then .error (.valueError (noJsonFiles dataDir))
  else .ok ((sortedFiles folder).foldl mergeFile {})

/-! ## Streaming -/

/-- The variables of `process_files_streaming`. `alignedData` collects the results of the alignment
calls. -/
structure StreamState where
  totals : ExpertTotals := ∅
  globalTokenIndex : ℕ := 0
  totalProcessed : ℕ := 0
  totalSkipped : ℕ := 0
  outputFile : OutputFile := none
  alignedData : List (List Record) := []
deriving DecidableEq

/-- Replace the dictionaries. -/
def StreamState.setTotals (totals : ExpertTotals) (s : StreamState) : StreamState :=
  { s with totals }

/-- Replace the output file. -/
def StreamState.setOutputFile (outputFile : OutputFile) (s : StreamState) : StreamState :=
  { s with outputFile }

/-- The body of the `try` block for one file. -/
def processFile (info : TokenInfo) (tokenizer : Option Tokenizer) (eosTokenIds : List ℤ)
    (file : ExpertFile) : PyM StreamState Unit := do
  let data ← PyM.ofExcept file
  if data.records = [] then
    pure ()
  else
    let s ← get
    let aligned := alignTokensWithExpertsStreaming info tokenizer data.records s.globalTokenIndex
    modify fun s => { s with alignedData := s.alignedData ++ [aligned] }
    if aligned = [] then
      modify fun s => { s with globalTokenIndex := s.globalTokenIndex + data.records.length }
    else
      let stats ← PyM.zoom StreamState.totals StreamState.setTotals
        (analyzeExpertSelection aligned eosTokenIds)
      modify fun s => { s with
        totalProcessed := s.totalProcessed + stats.processed
        totalSkipped := s.totalSkipped + stats.skipped }
      PyM.zoom StreamState.outputFile StreamState.setOutputFile (saveResultsJsonl aligned true)
      modify fun s => { s with globalTokenIndex := s.globalTokenIndex + data.records.length }

/-- The state of the loop over the files with the exceptions it has reported. -/
structure StreamRun extends StreamState where
  errors : List (String × Error) := []
deriving DecidableEq

/-- One iteration of the loop over the files: an exception is reported and the loop goes on with the
state it left. -/
def tryFile (info : TokenInfo) (tokenizer : Option Tokenizer) (eosTokenIds : List ℤ)
    (run : StreamRun) (file : String × ExpertFile) : StreamRun :=
  match PyM.exec (processFile info tokenizer eosTokenIds file.2) run.toStreamState with
  | (s, none) => { toStreamState := s, errors := run.errors }
  | (s, some e) => { toStreamState := s, errors := run.errors ++ [(file.1, e)] }

/-- `process_files_streaming`. An old output file is removed before the first file is read. -/
def processFilesStreaming (expertDataDir : String) (folder : Folder) (info : TokenInfo)
    (tokenizer : Option Tokenizer) (eosTokenIds : List ℤ) : Except Error StreamRun :=
  if sortedFiles folder = [] then .error (.valueError (noJsonFiles expertDataDir))
  else .ok ((sortedFiles folder).foldl (tryFile info tokenizer eosTokenIds) {})

/-! ## The invariant of the loop over the files -/

section Invariant

variable {info : TokenInfo} {tokenizer : Option Tokenizer} {eosTokenIds : List ℤ}

/-- The state after files with the given records, none of which raised. -/
structure StreamInv (info : TokenInfo) (tokenizer : Option Tokenizer) (eosTokenIds : List ℤ)
    (records : List Record) (s : StreamState) : Prop where
  index_eq : s.globalTokenIndex = records.length
  aligned_eq : s.alignedData.flatten = alignTokensWithExpertsStreaming info tokenizer records 0
  analyzed : (analyzeExpertSelection (alignTokensWithExpertsStreaming info tokenizer records 0)
    eosTokenIds).run ∅ = .ok ⟨s.totalProcessed, s.totalSkipped⟩ s.totals

/-- The invariant before the first file. -/
theorem streamInv_init : StreamInv info tokenizer eosTokenIds [] {} :=
  ⟨rfl, rfl, rfl⟩

/-- A file that does not raise extends the invariant by its records. -/
theorem processFile_inv {records : List Record} {s s' : StreamState} {file : ExpertFile}
    (hinv : StreamInv info tokenizer eosTokenIds records s)
    (hrun : (processFile info tokenizer eosTokenIds file).run s = .ok ⟨⟩ s') :
    ∃ data, file = .ok data ∧
      StreamInv info tokenizer eosTokenIds (records ++ data.records) s' := by
  obtain ⟨hidx, hal, han⟩ := hinv
  obtain ⟨data, s₁, hfile, hbody⟩ := PyM.run_bind_eq_ok.mp hrun
  obtain ⟨rfl, rfl⟩ := PyM.run_ofExcept_eq_ok.mp hfile
  refine ⟨data, rfl, ?_⟩
  by_cases hempty : data.records = []
  · -- an empty file changes nothing
    rw [if_pos hempty] at hbody
    cases hbody
    rw [hempty, List.append_nil]
    exact ⟨hidx, hal, han⟩
  rw [if_neg hempty, PyM.run_bind_of_ok (PyM.run_get _), PyM.run_bind_of_ok (PyM.run_modify _ _),
    hidx] at hbody
  have hsplit := alignStreaming_append info tokenizer records data.records 0
  rw [Nat.zero_add] at hsplit
  by_cases hnone : alignTokensWithExpertsStreaming info tokenizer data.records records.length = []
  · -- the file starts past the last token: only the index moves
    rw [if_pos hnone] at hbody
    cases hbody
    rw [hnone, List.append_nil] at hsplit
    refine ⟨?_, ?_, ?_⟩
    · simp only [List.length_append]
    · simp only [List.flatten_append, List.flatten_cons, List.flatten_nil, hal, hnone,
        List.append_nil, hsplit]
    · rw [hsplit]
      exact han
  · rw [if_neg hnone] at hbody
    obtain ⟨stats, s₂, hzoom, hbody⟩ := PyM.run_bind_eq_ok.mp hbody
    obtain ⟨totals, hanalyze, rfl⟩ := PyM.run_zoom_eq_ok.mp hzoom
    rw [PyM.run_bind_of_ok (PyM.run_modify _ _)] at hbody
    obtain ⟨_, s₃, hsave, hbody⟩ := PyM.run_bind_eq_ok.mp hbody
    obtain ⟨out, -, rfl⟩ := PyM.run_zoom_eq_ok.mp hsave
    cases hbody
    refine ⟨?_, ?_, ?_⟩
    · simp only [StreamState.setOutputFile, StreamState.setTotals, List.length_append]
    · simp only [StreamState.setOutputFile, StreamState.setTotals, List.flatten_append,
        List.flatten_cons, List.flatten_nil, hal, List.append_nil, hsplit]
    · rw [hsplit]
      exact analyzeExpertSelection_append han hanalyze

/-- Errors are never taken back. -/
theorem errors_foldl_tryFile_eq_nil {files : List (String × ExpertFile)} {run : StreamRun}
    (h : (files.foldl (tryFile info tokenizer eosTokenIds) run).errors = []) : run.errors = [] := by
  induction files generalizing run with
  | nil => exact h
  | cons file files ih =>
    have hstep := ih h
    simp only [tryFile] at hstep
    split at hstep
    · exact hstep
    · simp at hstep

/-- The invariant over the files of a folder, none of which raised: the records are those that
merging the same files gives. -/
theorem foldl_tryFile_inv {files : List (String × ExpertFile)} {run : StreamRun} (acc : ExpertData)
    (hinv : StreamInv info tokenizer eosTokenIds acc.records run.toStreamState)
    (h : (files.foldl (tryFile info tokenizer eosTokenIds) run).errors = []) :
    StreamInv info tokenizer eosTokenIds (files.foldl mergeFile acc).records
      (files.foldl (tryFile info tokenizer eosTokenIds) run).toStreamState := by
  induction files generalizing run acc with
  | nil => exact hinv
  | cons file files ih =>
    rw [List.foldl_cons] at h ⊢
    rw [List.foldl_cons]
    have hstep := errors_foldl_tryFile_eq_nil h
    refine ih _ ?_ h
    unfold tryFile at hstep ⊢
    split at hstep
    · rename_i s hexec
      obtain ⟨data, hfile, hinv'⟩ := processFile_inv hinv (PyM.exec_eq_none.mp hexec)
      simpa only [mergeFile, hfile] using hinv'
    · simp at hstep

end Invariant

/-- **Streaming agrees with the one-shot path.** When no file raises, the alignments of the files laid
end to end are the one-shot alignment of the merged records, the accumulated dictionaries and counters
are those of one analysis of it, and every paired record is processed or skipped. -/
theorem processFilesStreaming_eq_oneShot (inferenceResults : List InferenceResult)
    (numRequests : Option ℤ) (tokenizer : Option Tokenizer) (eosTokenIds : List ℤ)
    (expertDataDir : String) (folder : Folder) (info : TokenInfo) (run : StreamRun)
    (hinfo : prepareTokenInfo inferenceResults numRequests = .ok info)
    (hrun : processFilesStreaming expertDataDir folder info tokenizer eosTokenIds = .ok run)
    (hok : run.errors = []) :
    ∃ data aligned stats totals,
      loadExpertDistributionDataFromFolder expertDataDir folder = .ok data ∧
      alignTokensWithExperts inferenceResults data tokenizer numRequests = .ok aligned ∧
      run.alignedData.flatten = aligned ∧
      (analyzeExpertSelection aligned eosTokenIds).run ∅ = .ok stats totals ∧
      run.totals = totals ∧
      run.totalProcessed = stats.processed ∧ run.totalSkipped = stats.skipped ∧
      run.totalProcessed + run.totalSkipped =
        min info.allTokenIds.length data.records.length := by
  rw [processFilesStreaming] at hrun
  split at hrun
  · cases hrun
  · rename_i hfiles
    cases hrun
    obtain ⟨-, hal, han⟩ := foldl_tryFile_inv {} streamInv_init hok
    refine ⟨_, _, _, _, if_neg hfiles, ?_, hal, han, rfl, rfl, rfl, ?_⟩
    · rw [alignTokensWithExperts_eq_streaming, hinfo]
      rfl
    · rw [analyzeExpertSelection_total han, length_alignStreaming, Nat.sub_zero]

/-- Three requests, the second without tokens. -/
def sampleResults : List InferenceResult :=
  [{ requestId := 0, tokenIds := [5, 7] }, { requestId := 1, tokenIds := [] },
    { requestId := 2, tokenIds := [9] }]

/-- A record of one layer with one row of two slots. -/
def sampleRecord (e : ℤ) : Record :=
  { topkIdsOfLayer := [[some [some e, some (-1)]]]
    topkWeightsOfLayer := [[some [some (1 / 2), some 0]]] }

/-- A file before, one without records, one that straddles the last token, one past it. -/
def sampleFolder : Folder :=
  (((PyDict.empty.set "d.json" (.ok { records := [sampleRecord 4] })).set
    "c.json" (.ok { records := [sampleRecord 2, sampleRecord 3, sampleRecord 4] })).set
    "b.json" (.ok {})).set "a.json" (.ok { records := [sampleRecord 1] })

/-- The token list of `sampleResults`. -/
def sampleInfo : TokenInfo :=
  ⟨[5, 7, 9], [(0, 2), (2, 2), (2, 3)], [.str [], .str [], .str []]⟩

theorem processFilesStreaming_eq_oneShot_sample :
    ∃ run data aligned stats totals,
      processFilesStreaming "logs" sampleFolder sampleInfo none [9] = .ok run ∧
      loadExpertDistributionDataFromFolder "logs" sampleFolder = .ok data ∧
      alignTokensWithExperts sampleResults data none none = .ok aligned ∧
      run.alignedData.flatten = aligned ∧
      (analyzeExpertSelection aligned [9]).run ∅ = .ok stats totals ∧
      run.totals = totals ∧ run.totalProcessed = stats.processed ∧
      run.totalSkipped = stats.skipped ∧ run.totalProcessed + run.totalSkipped = 3 := by
  have hne : sortedFiles sampleFolder ≠ [] := by decide
  have hrun : processFilesStreaming "logs" sampleFolder sampleInfo none [9] =
      .ok ((sortedFiles sampleFolder).foldl (tryFile sampleInfo none [9]) {}) := if_neg hne
  obtain ⟨data, aligned, stats, totals, hload, halign, hflat, han, htot, hp, hs, hsum⟩ :=
    processFilesStreaming_eq_oneShot sampleResults none none [9] "logs" sampleFolder sampleInfo _
      rfl hrun (by decide)
  have hmin : min sampleInfo.allTokenIds.length data.records.length = 3 := by
    rw [loadExpertDistributionDataFromFolder, if_neg hne] at hload
    cases hload
    decide
  exact ⟨_, data, aligned, stats, totals, hrun, hload, halign, hflat, han, htot, hp, hs,
    hsum.trans hmin⟩

end MoeSpecialization.Postprocess
