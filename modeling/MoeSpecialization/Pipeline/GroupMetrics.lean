import MoeSpecialization.Common.Disk
import MoeSpecialization.Common.PyInt
import MoeSpecialization.Metrics.ExpertGroups
import MoeSpecialization.Metrics.NGram

/-!
# The expert group step

Reference: `run_expert_group` in `metric/script/run_all_metrics.sh`, `main` in
`metric/utils/compute_expert_metrics.py`, and `metric/utils/aggregate_expert_group_ngram.py`.

The step runs `compute_expert_metrics.py` on the `results_all.jsonl` of every input directory and then
`aggregate_expert_group_ngram.py` on all of them. The shell chooses the output directories: with
`OUTPUT_BASE_DIR` they are named by the last component of the input directory, without it they are inside
of it. The aggregation looks inside of the input directories in both cases. All input directories are of
the form `<dataset>/expert_statistics`, so that with `OUTPUT_BASE_DIR` there is one output directory for
all of them.
-/

namespace MoeSpecialization.Pipeline

open Py Postprocess Metrics ComputeExpertMetrics

/-! ## The files -/

/-- A row of the summary: the label and the path of an input directory, and the mean ratio for every `n`. -/
structure SummaryRow where
  directory : String
  fullPath : Path
  ratioMeans : List (ℕ × Option ℚ)

/-- What a reader finds in a file: the records of a `results_all.jsonl`, the layers of an
`expert_group_ngram_n{n}.json`, the rows of the summary, or none of these. -/
inductive FileContent where
  | results (records : List OutputRecord)
  | ngram (layers : PyDict ℕ GroupNgramStatistics)
  | summary (rows : List SummaryRow)
  | other

/-- The files that the step reads and writes. -/
abbrev MetricDisk := Disk FileContent

/-- `load_jsonl_data`. A file of another kind has no line that is a record. -/
def FileContent.records : FileContent → List OutputRecord
  | .results records => records
  | _ => []

/-- `expert_group_ngram_n{n}.json`. -/
def ngramJson (n : ℕ) : String := "expert_group_ngram_n" ++ toString n ++ ".json"

/-- `expert_group_ngram_n{n}.csv`. -/
def ngramCsv (n : ℕ) : String := "expert_group_ngram_n" ++ toString n ++ ".csv"

/-! ## `compute_expert_metrics.py` -/

/-- `--mode` with its argument. -/
inductive Mode where
  | threshold (threshold : ℚ)
  | topk (topk : ℤ)

/-- The experts that are selected on a layer. -/
def Mode.select (mode : Mode) (weights : PyDict ℤ ℚ) (totalWeight : ℚ) : List ℤ :=
  match mode with
  | .threshold t => (selectTopExpertsByThreshold weights totalWeight t).selected
  | .topk k => (selectTopExpertsByTopk weights totalWeight k).selected

/-- `expert_groups`. -/
def expertGroups (mode : Mode) (records : List OutputRecord) : PyDict ℤ (List ℤ) :=
  let weights := computeLayerExpertWeights records
  weights.layerExpertWeights.entries.foldl (fun groups layer =>
    groups.set layer.1 (mode.select layer.2 (weights.layerTotalWeight.getD layer.1 0))) ∅

/-- The statistics that `main` computes of some records for one `n`. -/
def groupNgramStatistics (mode : Mode) (records : List OutputRecord) (n : ℕ) :
    Except Error (PyDict ℕ GroupNgramStatistics) := do
  let requestSequences ← extractExpertSequencesByRequest records
  calculateGroupNgramStatistics requestSequences ((expertGroups mode records).mapValues List.toFinset) n

/-- The parser refuses an empty list of values of `n`, and a file without records is an error. -/
def checkArguments (nValues : List ℕ) (records : List OutputRecord) : Except Error Unit :=
  if nValues = [] then .error (.runtimeError "expected at least one argument")
  else if records = [] then .error (.valueError "没有读取到任何记录，请检查 input_file。")
  else .ok ()

/-- `main` of `compute_expert_metrics.py`. The contents of the routing files and of the CSV files are not
read by the step. -/
def computeMain (mode : Mode) (nValues : List ℕ) (records : List OutputRecord) (outputDir : Path) :
    PyM MetricDisk Unit := do
  PyM.ofExcept (checkArguments nValues records)
  modify (Disk.mkdirP outputDir)
  modify (Disk.write (outputDir ++ ["expert_group_routing.json"]) .other)
  modify (Disk.write (outputDir ++ ["expert_group_routing.csv"]) .other)
  let requestSequences ← PyM.ofExcept (extractExpertSequencesByRequest records)
  let expertGroupsSet := (expertGroups mode records).mapValues List.toFinset
  nValues.forM fun n => do
    let layerStatistics ← PyM.ofExcept
      (calculateGroupNgramStatistics requestSequences expertGroupsSet n)
    modify (Disk.write (outputDir ++ [ngramJson n]) (.ngram layerStatistics))
    modify (Disk.write (outputDir ++ [ngramCsv n]) .other)

/-! ## `aggregate_expert_group_ngram.py` -/

/-- `n_values` of the aggregation. -/
def aggregatedValues : List ℕ := [2, 5, 10, 20]

/-- `load_expert_group_ngram`: the new layout, else the old one; a file that cannot be parsed is `None`. -/
def loadExpertGroupNgram (disk : MetricDisk) (inputDir : Path) (n : ℕ) :
    Option (PyDict ℕ GroupNgramStatistics) :=
  let jsonFileNew := disk.files (inputDir ++ ["expert_group_routing", ngramJson n])
  let jsonFileOld := disk.files (inputDir ++ ["group_experts", ngramJson n])
  match jsonFileNew.or jsonFileOld with
  | some (.ngram layers) => some layers
  | _ => none

/-- `calculate_group_ngram_mean_across_layers`. -/
def calculateGroupNgramMeanAcrossLayers (layers : PyDict ℕ GroupNgramStatistics) : ℚ :=
  let ratios := layers.values.map (·.groupNgramRatio)
  if ratios = [] then 0 else ratios.sum / ratios.length

/-- `basename`. -/
def basename (path : Path) : String := path.getLastD ""

/-- `result_row`. -/
def resultRow (disk : MetricDisk) (inputDir : Path) : SummaryRow where
  directory := basename inputDir
  fullPath := inputDir
  ratioMeans := aggregatedValues.map fun n =>
    (n, (loadExpertGroupNgram disk inputDir n).map calculateGroupNgramMeanAcrossLayers)

/-- `all_results` of `aggregate_results`. -/
def aggregateRows (disk : MetricDisk) (inputDirs : List Path) : List SummaryRow :=
  (inputDirs.filter disk.isDir).map (resultRow disk)

/-! ## `run_expert_group` -/

/-- The settings of the step. The input directories are `<dataset>/expert_statistics`, for distinct
datasets. -/
structure GroupStep where
  datasets : List Path
  outputBaseDir : Option Path := none
  summaryOutputFile : Option Path := none
  mode : Mode := .threshold (85 / 100)
  nValues : List ℕ := [2, 5, 10, 20]
  nodup : datasets.Nodup

namespace GroupStep

variable (s : GroupStep)

/-- `INPUT_DIRS`. -/
def inputDirs : List Path := s.datasets.map (· ++ ["expert_statistics"])

/-- `base_output_dir`. -/
def baseOutputDir (inputDir : Path) : Path :=
  match s.outputBaseDir with
  | some base => base ++ [basename inputDir]
  | none => inputDir

/-- `routing_output_dir`. -/
def routingOutputDir (inputDir : Path) : Path := s.baseOutputDir inputDir ++ ["expert_group_routing"]

/-- The body of the loop over the input directories. A directory without `results_all.jsonl` is
skipped. -/
def processDir (inputDir : Path) : PyM MetricDisk Unit := do
  let disk ← get
  if disk.isDir inputDir then
    match disk.files (inputDir ++ ["results_all.jsonl"]) with
    | none => pure ()
    | some file => do
      modify (Disk.mkdirP (s.routingOutputDir inputDir))
      computeMain s.mode s.nValues file.records (s.routingOutputDir inputDir)
  else pure ()

/-- `summary_file`. -/
def summaryFile : Path :=
  s.summaryOutputFile.getD (s.routingOutputDir (s.inputDirs.headD []) ++ ["group_n_gram_summary.csv"])

/-- `run_expert_group`, with the rows of the summary. The step ends at the first directory for which the
computation fails. -/
def runExpertGroup : PyM MetricDisk (List SummaryRow) :=
  if s.inputDirs = [] then pure []
  else do
    s.inputDirs.forM s.processDir
    let disk ← get
    let rows := aggregateRows disk s.inputDirs
    modify (Disk.mkdirP s.summaryFile.dropLast)
    modify (Disk.write s.summaryFile (.summary rows))
    pure rows

/-- The file to which the statistics of an input directory are written. -/
def ngramFile (inputDir : Path) (n : ℕ) : Path := s.routingOutputDir inputDir ++ [ngramJson n]

/-- Different input directories have different files. -/
def DistinctOutputs : Prop :=
  ∀ d ∈ s.inputDirs, ∀ d' ∈ s.inputDirs, d ≠ d' → ∀ n ∈ s.nValues, ∀ n' ∈ s.nValues,
    s.ngramFile d n ≠ s.ngramFile d' n'

/-- Whatever is on the disk, a run of the step has one row for every input directory with results, and for
every aggregated `n` that was computed the row has the mean ratio of the statistics of these results. -/
def ReadsBack : Prop :=
  ∀ disk rows disk', s.runExpertGroup.run disk = .ok rows disk' →
    ∀ d ∈ s.inputDirs, disk.isDir d = true →
      ∀ file, disk.files (d ++ ["results_all.jsonl"]) = some file →
        ∃ row ∈ rows, row.fullPath = d ∧ (∀ row' ∈ rows, row'.fullPath = d → row' = row) ∧
          ∀ n ∈ s.nValues, n ∈ aggregatedValues → ∃ layers,
            groupNgramStatistics s.mode file.records n = .ok layers ∧
              (n, some (calculateGroupNgramMeanAcrossLayers layers)) ∈ row.ratioMeans

end GroupStep

/-! ## The names of the files -/

theorem toList_ngramJson (n : ℕ) : (ngramJson n).toList =
    "expert_group_ngram_n".toList ++ (toString n).toList ++ ".json".toList := by
  unfold ngramJson
  simp only [String.toList_append]

theorem toList_ngramCsv (n : ℕ) : (ngramCsv n).toList =
    "expert_group_ngram_n".toList ++ (toString n).toList ++ ".csv".toList := by
  unfold ngramCsv
  simp only [String.toList_append]

theorem ngramJson_inj {n n' : ℕ} (h : ngramJson n = ngramJson n') : n = n' := by
  have hchars := congrArg String.toList h
  rw [toList_ngramJson, toList_ngramJson] at hchars
  have hdigits := List.append_cancel_left (List.append_cancel_right hchars)
  exact toString_inj.mp (String.toList_inj.mp hdigits)

theorem ngramJson_ne_ngramCsv (n n' : ℕ) : ngramJson n ≠ ngramCsv n' := by
  intro h
  have hlast : ".json".toList.getLast? = ".csv".toList.getLast? := by
    have hchars := congrArg (fun name : String => name.toList.getLast?) h
    simp only [toList_ngramJson, toList_ngramCsv] at hchars
    rwa [List.getLast?_append_of_ne_nil _ (by decide), List.getLast?_append_of_ne_nil _ (by decide)]
      at hchars
  exact absurd hlast (by decide)

/-! ## One computation -/

section Compute

variable {mode : Mode} {nValues : List ℕ} {records : List OutputRecord} {outputDir : Path}

theorem computeMain_within :
    PyM.Preserves (Disk.Within outputDir) (computeMain mode nValues records outputDir) := by
  have hrefl : ∀ d : MetricDisk, Disk.Within outputDir d d := Disk.Within.refl outputDir
  have htrans : ∀ a b c : MetricDisk, Disk.Within outputDir a b → Disk.Within outputDir b c →
      Disk.Within outputDir a c := fun _ _ _ h h' => h.trans h'
  have hwrite : ∀ (name : String) (content : FileContent), PyM.Preserves (Disk.Within outputDir)
      (modify (Disk.write (outputDir ++ [name]) content) : PyM MetricDisk Unit) :=
    fun name content => PyM.preserves_modify fun d => Disk.within_write outputDir name content d
  refine PyM.preserves_bind htrans (PyM.preserves_ofExcept hrefl _) fun _ => ?_
  refine PyM.preserves_bind htrans (PyM.preserves_modify (Disk.within_mkdirP _ _)) fun _ => ?_
  refine PyM.preserves_bind htrans (hwrite _ _) fun _ => ?_
  refine PyM.preserves_bind htrans (hwrite _ _) fun _ => ?_
  refine PyM.preserves_bind htrans (PyM.preserves_ofExcept hrefl _) fun seqs => ?_
  refine PyM.preserves_forM hrefl htrans fun n _ => ?_
  refine PyM.preserves_bind htrans (PyM.preserves_ofExcept hrefl _) fun stats => ?_
  exact PyM.preserves_bind htrans (hwrite _ _) fun _ => hwrite _ _

/-- The body of the loop over the values of `n`. -/
def writeNgram (requestSequences : Sequences) (expertGroupsSet : PyDict ℤ (Finset ℤ)) (outputDir : Path)
    (n : ℕ) : PyM MetricDisk Unit := do
  let layerStatistics ← PyM.ofExcept (calculateGroupNgramStatistics requestSequences expertGroupsSet n)
  modify (Disk.write (outputDir ++ [ngramJson n]) (.ngram layerStatistics))
  modify (Disk.write (outputDir ++ [ngramCsv n]) .other)

section

variable {seqs : Sequences} {groups : PyDict ℤ (Finset ℤ)} {n : ℕ} {d d' : MetricDisk}

theorem run_writeNgram : (writeNgram seqs groups outputDir n).run d = .ok () d' ↔
    ∃ layers, calculateGroupNgramStatistics seqs groups n = .ok layers ∧
      d' = (d.write (outputDir ++ [ngramJson n]) (.ngram layers)).write (outputDir ++ [ngramCsv n])
        .other := by
  rw [writeNgram, PyM.run_bind_eq_ok]
  simp only [PyM.run_ofExcept_eq_ok]
  constructor
  · rintro ⟨layers, t, ⟨hlayers, rfl⟩, hrun⟩
    cases hrun
    exact ⟨layers, hlayers, rfl⟩
  · rintro ⟨layers, hlayers, rfl⟩
    exact ⟨layers, d, ⟨hlayers, rfl⟩, rfl⟩

/-- The file of `n` after one iteration. -/
theorem files_writeNgram (hrun : (writeNgram seqs groups outputDir n).run d = .ok () d') (n' : ℕ) :
    d'.files (outputDir ++ [ngramJson n']) = if n' = n then
        (calculateGroupNgramStatistics seqs groups n).toOption.map FileContent.ngram
      else d.files (outputDir ++ [ngramJson n']) := by
  obtain ⟨layers, hlayers, rfl⟩ := run_writeNgram.mp hrun
  have hcsv : outputDir ++ [ngramJson n'] ≠ outputDir ++ [ngramCsv n] := fun h =>
    ngramJson_ne_ngramCsv n' n (List.singleton_injective (List.append_cancel_left h))
  rw [Disk.write, Disk.write]
  simp only [Function.update_of_ne hcsv]
  by_cases hn : n' = n
  · rw [if_pos hn, hn, Function.update_self, hlayers]
    rfl
  · have hjson : outputDir ++ [ngramJson n'] ≠ outputDir ++ [ngramJson n] := fun h =>
      hn (ngramJson_inj (List.singleton_injective (List.append_cancel_left h)))
    rw [if_neg hn, Function.update_of_ne hjson]

/-- After the loop every `n` has its file. -/
theorem files_ngramLoop (hrun : (nValues.forM (writeNgram seqs groups outputDir)).run d = .ok () d') :
    ∀ n ∈ nValues, ∃ layers, calculateGroupNgramStatistics seqs groups n = .ok layers ∧
      d'.files (outputDir ++ [ngramJson n]) = some (.ngram layers) := by
  induction nValues using List.reverseRecOn generalizing d' with
  | nil => exact fun n hn => absurd hn List.not_mem_nil
  | append_singleton nValues m ih =>
    obtain ⟨t, hinit, hlast⟩ := PyM.run_forM_concat.mp hrun
    intro n hn
    rw [files_writeNgram hlast]
    by_cases hnm : n = m
    · subst hnm
      obtain ⟨layers, hlayers, -⟩ := run_writeNgram.mp hlast
      exact ⟨layers, hlayers, by rw [if_pos rfl, hlayers]; rfl⟩
    · rw [if_neg hnm]
      refine ih hinit n ?_
      simpa [hnm] using hn

end

/-- A computation that returns has had records, and leaves the statistics of every `n`. -/
theorem files_computeMain {d d' : MetricDisk}
    (hrun : (computeMain mode nValues records outputDir).run d = .ok () d') :
    ∀ n ∈ nValues, ∃ layers, groupNgramStatistics mode records n = .ok layers ∧
      d'.files (outputDir ++ [ngramJson n]) = some (.ngram layers) := by
  intro n hn
  obtain ⟨_, d₁, -, hrun⟩ := PyM.run_bind_eq_ok.mp hrun
  rw [PyM.run_bind_of_ok (PyM.run_modify _ _), PyM.run_bind_of_ok (PyM.run_modify _ _),
    PyM.run_bind_of_ok (PyM.run_modify _ _)] at hrun
  obtain ⟨seqs, d₂, hseqs, hrun⟩ := PyM.run_bind_eq_ok.mp hrun
  obtain ⟨hseqs, -⟩ := PyM.run_ofExcept_eq_ok.mp hseqs
  obtain ⟨layers, hlayers, hfile⟩ := files_ngramLoop hrun n hn
  exact ⟨layers, by rw [groupNgramStatistics, hseqs]; exact hlayers, hfile⟩

/-- A computation returns on records whose requests can be told apart. -/
theorem exists_computeMain (hn : nValues ≠ []) (hrecords : records ≠ []) {seqs : Sequences}
    (hseqs : extractExpertSequencesByRequest records = .ok seqs) (d : MetricDisk) :
    ∃ d', (computeMain mode nValues records outputDir).run d = .ok () d' := by
  have hloop : ∀ (ns : List ℕ) (groups : PyDict ℤ (Finset ℤ)) (t : MetricDisk),
      ∃ t', (ns.forM (writeNgram seqs groups outputDir)).run t = .ok () t' := by
    intro ns groups t
    induction ns using List.reverseRecOn with
    | nil => exact ⟨t, rfl⟩
    | append_singleton ns m ih =>
      obtain ⟨t', ht'⟩ := ih
      obtain ⟨layers, hlayers, -⟩ := calculateGroupNgramStatistics_layer seqs groups m
      exact ⟨_, PyM.run_forM_concat.mpr ⟨t', ht', run_writeNgram.mpr ⟨layers, hlayers, rfl⟩⟩⟩
  have hcheck : checkArguments nValues records = .ok () := by
    rw [checkArguments, if_neg hn, if_neg hrecords]
  rw [computeMain, hcheck, PyM.run_bind_of_ok (PyM.run_ofExcept_ok _ _),
    PyM.run_bind_of_ok (PyM.run_modify _ _), PyM.run_bind_of_ok (PyM.run_modify _ _),
    PyM.run_bind_of_ok (PyM.run_modify _ _), hseqs, PyM.run_bind_of_ok (PyM.run_ofExcept_ok _ _)]
  exact hloop nValues _ _

end Compute

/-! ## The aggregation -/

section Aggregate

variable {disk : MetricDisk} {inputDirs : List Path} {d : Path}

theorem mem_aggregateRows {row : SummaryRow} : row ∈ aggregateRows disk inputDirs ↔
    ∃ d ∈ inputDirs, disk.isDir d = true ∧ resultRow disk d = row := by
  rw [aggregateRows, List.mem_map]
  constructor
  · rintro ⟨d, hd, hrow⟩
    obtain ⟨hmem, hdir⟩ := List.mem_filter.mp hd
    exact ⟨d, hmem, hdir, hrow⟩
  · rintro ⟨d, hmem, hdir, hrow⟩
    exact ⟨d, List.mem_filter.mpr ⟨hmem, hdir⟩, hrow⟩

/-- The row of a directory is the one with its path. -/
theorem eq_resultRow {row : SummaryRow} (hrow : row ∈ aggregateRows disk inputDirs)
    (hpath : row.fullPath = d) : row = resultRow disk d := by
  obtain ⟨d', -, -, rfl⟩ := mem_aggregateRows.mp hrow
  have hd' : d' = d := hpath
  rw [hd']

theorem mem_ratioMeans {n : ℕ} {mean : Option ℚ} : (n, mean) ∈ (resultRow disk d).ratioMeans ↔
    n ∈ aggregatedValues ∧
      (loadExpertGroupNgram disk d n).map calculateGroupNgramMeanAcrossLayers = mean := by
  rw [resultRow, List.mem_map]
  constructor
  · rintro ⟨n', hn', h⟩
    cases h
    exact ⟨hn', rfl⟩
  · rintro ⟨hn, rfl⟩
    exact ⟨n, hn, rfl⟩

theorem loadExpertGroupNgram_of_new {n : ℕ} {layers : PyDict ℕ GroupNgramStatistics}
    (h : disk.files (d ++ ["expert_group_routing", ngramJson n]) = some (.ngram layers)) :
    loadExpertGroupNgram disk d n = some layers := by
  rw [loadExpertGroupNgram, h]
  rfl

theorem loadExpertGroupNgram_eq_none {n : ℕ}
    (hnew : disk.files (d ++ ["expert_group_routing", ngramJson n]) = none)
    (hold : disk.files (d ++ ["group_experts", ngramJson n]) = none) :
    loadExpertGroupNgram disk d n = none := by
  rw [loadExpertGroupNgram, hnew, hold]
  rfl

end Aggregate

/-! ## A run of the step -/

namespace GroupStep

variable {s : GroupStep} {d : Path} {disk disk' : MetricDisk}

/-- A directory with results is handed to the computation. -/
theorem run_processDir {file : FileContent} (hdir : disk.isDir d = true)
    (hfile : disk.files (d ++ ["results_all.jsonl"]) = some file) :
    (s.processDir d).run disk =
      (computeMain s.mode s.nValues file.records (s.routingOutputDir d)).run
        (disk.mkdirP (s.routingOutputDir d)) := by
  rw [processDir, PyM.run_bind_of_ok (PyM.run_get _), if_pos hdir, hfile]
  rfl

theorem processDir_within (s : GroupStep) (d : Path) :
    PyM.Preserves (Disk.Within (s.routingOutputDir d)) (s.processDir d) := by
  refine PyM.preserves_get_bind fun disk => ?_
  split
  · split
    · exact Disk.Within.refl _ _
    · exact (Disk.within_mkdirP _ _ _).trans (computeMain_within _)
  · exact Disk.Within.refl _ _

/-- What is read of directories named `expert_statistics` is kept. -/
structure KeepsInputs (disk disk' : MetricDisk) : Prop where
  files : ∀ d : Path, d.getLast? = some "expert_statistics" →
    disk'.files (d ++ ["results_all.jsonl"]) = disk.files (d ++ ["results_all.jsonl"])
  isDir : ∀ p, disk.isDir p = true → disk'.isDir p = true

theorem KeepsInputs.of_within (h : Disk.Within (s.routingOutputDir d) disk disk') :
    KeepsInputs disk disk' := by
  refine ⟨fun d' hd' => h.files _ ?_, h.isDir⟩
  rw [List.dropLast_concat]
  rintro rfl
  rw [routingOutputDir, List.getLast?_concat] at hd'
  exact absurd (Option.some.inj hd') (by decide)

/-- No directory of the loop touches the results of a directory. -/
theorem loop_keepsInputs (s : GroupStep) (dirs : List Path) :
    PyM.Preserves KeepsInputs (dirs.forM s.processDir) := by
  refine PyM.preserves_forM (fun _ => ⟨fun _ _ => rfl, fun _ h => h⟩) ?_ fun d _ disk =>
    .of_within (s.processDir_within d disk)
  intro a b c h h'
  exact ⟨fun d hd => (h'.files d hd).trans (h.files d hd), fun p hp => h'.isDir p (h.isDir p hp)⟩

theorem getLast_of_mem_inputDirs (hd : d ∈ s.inputDirs) : d.getLast? = some "expert_statistics" := by
  obtain ⟨x, -, rfl⟩ := List.mem_map.mp hd
  exact List.getLast?_concat

theorem basename_of_mem_inputDirs (hd : d ∈ s.inputDirs) : basename d = "expert_statistics" := by
  rw [basename, List.getLastD_eq_getLast?, getLast_of_mem_inputDirs hd]
  rfl

/-- After the loop, the statistics of every directory with results are inside of it, if that is where the
shell puts them. -/
theorem files_loop {dirs : List Path} (hlast : ∀ d ∈ dirs, d.getLast? = some "expert_statistics")
    (hinside : ∀ d ∈ dirs, s.routingOutputDir d = d ++ ["expert_group_routing"])
    (hrun : (dirs.forM s.processDir).run disk = .ok () disk') :
    ∀ d ∈ dirs, disk.isDir d = true → ∀ file, disk.files (d ++ ["results_all.jsonl"]) = some file →
      ∀ n ∈ s.nValues, ∃ layers, groupNgramStatistics s.mode file.records n = .ok layers ∧
        disk'.files (d ++ ["expert_group_routing"] ++ [ngramJson n]) = some (.ngram layers) := by
  induction dirs using List.reverseRecOn generalizing disk' with
  | nil => exact fun d hd => absurd hd List.not_mem_nil
  | append_singleton dirs d₀ ih =>
    obtain ⟨t, hinit, hend⟩ := PyM.run_forM_concat.mp hrun
    have hmem₀ : d₀ ∈ dirs ++ [d₀] := List.mem_append_right _ (List.mem_singleton_self d₀)
    intro d hd hdir file hfile n hn
    by_cases hdd : d = d₀
    · subst hdd
      have hkept := PyM.Preserves.of_run (s.loop_keepsInputs dirs) hinit
      rw [run_processDir (hkept.isDir d hdir) ((hkept.files d (hlast d hd)).trans hfile)] at hend
      rw [← hinside d hd]
      exact files_computeMain hend n hn
    · have hd' : d ∈ dirs := by simpa [hdd] using hd
      obtain ⟨layers, hlayers, hjson⟩ := ih (fun e he => hlast e (List.mem_append_left _ he))
        (fun e he => hinside e (List.mem_append_left _ he)) hinit d hd' hdir file hfile n hn
      refine ⟨layers, hlayers, ?_⟩
      rw [← hjson]
      apply (PyM.Preserves.of_run (s.processDir_within d₀) hend).files
      rw [List.dropLast_concat, hinside d₀ hmem₀]
      exact fun h => hdd (List.append_cancel_right h)

/-- The rows of a run that returns are those of the aggregation after the loop. -/
theorem run_runExpertGroup {rows : List SummaryRow} (hdirs : s.inputDirs ≠ [])
    (hrun : s.runExpertGroup.run disk = .ok rows disk') :
    ∃ t, (s.inputDirs.forM s.processDir).run disk = .ok () t ∧ rows = aggregateRows t s.inputDirs := by
  rw [runExpertGroup, if_neg hdirs] at hrun
  obtain ⟨_, t, hloop, hrun⟩ := PyM.run_bind_eq_ok.mp hrun
  refine ⟨t, hloop, ?_⟩
  rw [PyM.run_bind_of_ok (PyM.run_get _), PyM.run_bind_of_ok (PyM.run_modify _ _),
    PyM.run_bind_of_ok (PyM.run_modify _ _)] at hrun
  cases hrun
  rfl

/-- A run returns if its loop does. -/
theorem exists_runExpertGroup (hdirs : s.inputDirs ≠ []) {t : MetricDisk}
    (hloop : (s.inputDirs.forM s.processDir).run disk = .ok () t) :
    ∃ disk', s.runExpertGroup.run disk = .ok (aggregateRows t s.inputDirs) disk' := by
  rw [runExpertGroup, if_neg hdirs, PyM.run_bind_of_ok hloop]
  exact ⟨_, rfl⟩

/-- A directory with results has its row, and the row is read from the disk after the loop. -/
theorem readsBack_of (h : ∀ disk t, (s.inputDirs.forM s.processDir).run disk = .ok () t →
    ∀ d ∈ s.inputDirs, disk.isDir d = true → ∀ file,
      disk.files (d ++ ["results_all.jsonl"]) = some file → ∀ n ∈ s.nValues, n ∈ aggregatedValues →
        ∃ layers, groupNgramStatistics s.mode file.records n = .ok layers ∧
          loadExpertGroupNgram t d n = some layers) : s.ReadsBack := by
  intro disk rows disk' hrun d hd hdir file hfile
  obtain ⟨t, hloop, rfl⟩ := run_runExpertGroup (List.ne_nil_of_mem hd) hrun
  have hdir' : t.isDir d = true := (PyM.Preserves.of_run (s.loop_keepsInputs _) hloop).isDir d hdir
  refine ⟨resultRow t d, mem_aggregateRows.mpr ⟨d, hd, hdir', rfl⟩, rfl,
    fun row' hrow' hpath => eq_resultRow hrow' hpath, ?_⟩
  intro n hn hagg
  obtain ⟨layers, hlayers, hload⟩ := h disk t hloop d hd hdir file hfile n hn hagg
  exact ⟨layers, hlayers, mem_ratioMeans.mpr ⟨hagg, by rw [hload]; rfl⟩⟩

/-- Output directories inside of the input directories are read back. -/
theorem readsBack_of_inside
    (hinside : ∀ d ∈ s.inputDirs, s.routingOutputDir d = d ++ ["expert_group_routing"]) :
    s.ReadsBack := by
  refine readsBack_of fun disk t hloop d hd hdir file hfile n hn _ => ?_
  obtain ⟨layers, hlayers, hjson⟩ := files_loop (fun d hd => getLast_of_mem_inputDirs hd) hinside hloop d
    hd hdir file hfile n hn
  exact ⟨layers, hlayers, loadExpertGroupNgram_of_new (by rw [List.append_cons, hjson])⟩

/-! ## When the outputs are read back -/

theorem routingOutputDir_of_none (hbase : s.outputBaseDir = none) (d : Path) :
    s.routingOutputDir d = d ++ ["expert_group_routing"] := by
  rw [routingOutputDir, baseOutputDir, hbase]

/-- With `OUTPUT_BASE_DIR` the output directory does not depend on the input directory. -/
theorem routingOutputDir_of_some {base : Path} (hbase : s.outputBaseDir = some base)
    (hd : d ∈ s.inputDirs) :
    s.routingOutputDir d = base ++ ["expert_statistics"] ++ ["expert_group_routing"] := by
  rw [routingOutputDir, baseOutputDir, hbase]
  simp only [basename_of_mem_inputDirs hd]

theorem mem_inputDirs {x : Path} (hx : x ∈ s.datasets) : x ++ ["expert_statistics"] ∈ s.inputDirs :=
  List.mem_map_of_mem hx

theorem eq_of_mem_singleton {x d : Path} (hx : s.datasets = [x]) (hd : d ∈ s.inputDirs) :
    d = x ++ ["expert_statistics"] := by
  rw [inputDirs, hx] at hd
  exact List.mem_singleton.mp hd

/-- Two datasets share the files of an output base directory. -/
theorem not_distinctOutputs {base x y : Path} {n : ℕ} (hbase : s.outputBaseDir = some base)
    (hx : x ∈ s.datasets) (hy : y ∈ s.datasets) (hxy : x ≠ y) (hn : n ∈ s.nValues) :
    ¬ s.DistinctOutputs := by
  intro h
  refine h _ (mem_inputDirs hx) _ (mem_inputDirs hy) (fun he => hxy (List.append_cancel_right he)) n hn n
    hn ?_
  rw [ngramFile, ngramFile, routingOutputDir_of_some hbase (mem_inputDirs hx),
    routingOutputDir_of_some hbase (mem_inputDirs hy)]

/-- A disk on which one directory has a line with a request, and nothing else. -/
def lonelyDisk (d : Path) : MetricDisk where
  isDir p := p = d
  files p := if p = d ++ ["results_all.jsonl"] then some (.results [{ requestId := some 0 }]) else none

theorem files_lonelyDisk {p : Path} (hp : p.getLast? ≠ some "results_all.jsonl") :
    (lonelyDisk d).files p = none := by
  refine if_neg ?_
  rintro rfl
  exact hp List.getLast?_concat

/-- The loop over this one directory returns, and has written to its output directory only. -/
theorem exists_loop_lonelyDisk (hdirs : s.inputDirs = [d]) (hn : s.nValues ≠ []) :
    ∃ t, (s.inputDirs.forM s.processDir).run (lonelyDisk d) = .ok () t ∧
      Disk.Within (s.routingOutputDir d) (lonelyDisk d) t := by
  have hdir : (lonelyDisk d).isDir d = true := decide_eq_true rfl
  have hfile : (lonelyDisk d).files (d ++ ["results_all.jsonl"]) =
      some (.results [{ requestId := some 0 }]) := if_pos rfl
  have hids : ∀ record ∈ [({ requestId := some 0 } : OutputRecord)], record.requestId.isSome := by
    intro record hrecord
    rw [List.mem_singleton.mp hrecord]
    rfl
  obtain ⟨t, ht⟩ : ∃ t, (s.processDir d).run (lonelyDisk d) = .ok () t := by
    rw [run_processDir hdir hfile]
    exact exists_computeMain hn (List.cons_ne_nil _ _) (extractExpertSequences_eq hids) _
  refine ⟨t, ?_, PyM.Preserves.of_run (s.processDir_within d) ht⟩
  rw [hdirs]
  exact PyM.run_bind_eq_ok.mpr ⟨⟨⟩, t, ht, rfl⟩

theorem getLast_ngramJson_ne (p : Path) (dir : String) (n : ℕ) :
    (p ++ [dir, ngramJson n]).getLast? ≠ some "results_all.jsonl" := by
  rw [List.append_cons, List.getLast?_concat]
  intro h
  have hchars := congrArg (fun name : String => name.toList.head?) (Option.some.inj h)
  simp only [toList_ngramJson] at hchars
  exact absurd hchars (by simp)

/-- With an output base directory other than the dataset itself, the aggregation finds nothing. -/
theorem not_readsBack {base x : Path} {n : ℕ} (hbase : s.outputBaseDir = some base)
    (hx : s.datasets = [x]) (hne : x ≠ base) (hn : n ∈ s.nValues) (hagg : n ∈ aggregatedValues) :
    ¬ s.ReadsBack := by
  intro h
  have hdirs : s.inputDirs = [x ++ ["expert_statistics"]] := by rw [inputDirs, hx]; rfl
  have hd : x ++ ["expert_statistics"] ∈ s.inputDirs := by rw [hdirs]; exact List.mem_singleton_self _
  obtain ⟨t, hloop, hwithin⟩ := exists_loop_lonelyDisk hdirs (List.ne_nil_of_mem hn)
  obtain ⟨disk', hrun⟩ := exists_runExpertGroup (List.ne_nil_of_mem hd) hloop
  rw [routingOutputDir_of_some hbase hd] at hwithin
  -- neither the new layout nor the old one is the output directory
  have hfile : ∀ dir, (dir = "expert_group_routing" ∨ dir = "group_experts") →
      t.files (x ++ ["expert_statistics"] ++ [dir, ngramJson n]) = none := by
    intro dir hdir
    rw [← files_lonelyDisk (getLast_ngramJson_ne (x ++ ["expert_statistics"]) dir n)]
    apply hwithin.files
    rw [List.append_cons, List.dropLast_concat]
    intro he
    exact hne (List.append_cancel_right (List.append_inj_left' he rfl))
  have hload : loadExpertGroupNgram t (x ++ ["expert_statistics"]) n = none :=
    loadExpertGroupNgram_eq_none (hfile _ (.inl rfl)) (hfile _ (.inr rfl))
  obtain ⟨row, hrow, hpath, -, hmeans⟩ := h _ _ _ hrun _ hd (decide_eq_true rfl) _ (if_pos rfl)
  obtain ⟨layers, -, hmem⟩ := hmeans n hn hagg
  rw [eq_resultRow hrow hpath] at hmem
  obtain ⟨-, hmean⟩ := mem_ratioMeans.mp hmem
  rw [hload] at hmean
  cases hmean

theorem distinctOutputs_of_none (hbase : s.outputBaseDir = none) : s.DistinctOutputs := by
  intro d _ d' _ hne n _ n' _ hfile
  rw [ngramFile, ngramFile, routingOutputDir_of_none hbase, routingOutputDir_of_none hbase] at hfile
  exact hne (List.append_cancel_right (List.append_inj_left' hfile rfl))

theorem distinctOutputs_of_singleton {x : Path} (hx : s.datasets = [x]) : s.DistinctOutputs := by
  intro d hd d' hd' hne
  exact absurd ((eq_of_mem_singleton hx hd).trans (eq_of_mem_singleton hx hd').symm) hne

/-- The outputs of different inputs are apart and every input directory gets its own ratios in the summary
exactly without `OUTPUT_BASE_DIR`, or when nothing is computed, or for a single input directory whose
dataset is `OUTPUT_BASE_DIR` or none of whose values of `n` is aggregated. -/
theorem outputs_read_back_iff (s : GroupStep) : s.DistinctOutputs ∧ s.ReadsBack ↔
    s.outputBaseDir = none ∨ s.nValues = [] ∨ s.datasets = [] ∨ ∃ x, s.datasets = [x] ∧
      (s.outputBaseDir = some x ∨ ∀ n ∈ s.nValues, n ∉ aggregatedValues) := by
  constructor
  · rintro ⟨hdistinct, hreads⟩
    cases hbase : s.outputBaseDir with
    | none => exact .inl rfl
    | some base =>
      refine .inr ?_
      by_cases hn : s.nValues = []
      · exact .inl hn
      obtain ⟨n, hn⟩ := List.exists_mem_of_ne_nil _ hn
      match hdatasets : s.datasets, s.nodup with
      | [], _ => exact .inr (.inl rfl)
      | [x], _ =>
        refine .inr (.inr ⟨x, rfl, ?_⟩)
        by_cases hxb : x = base
        · exact .inl (by rw [hxb])
        · exact .inr fun m hm hagg => not_readsBack hbase hdatasets hxb hm hagg hreads
      | x :: y :: rest, hnodup =>
        have hxy : x ≠ y := fun he => (List.nodup_cons.mp hnodup).1 (by rw [he]; exact List.mem_cons_self)
        exact absurd hdistinct (not_distinctOutputs hbase (by rw [hdatasets]; exact List.mem_cons_self)
          (by rw [hdatasets]; exact List.mem_cons_of_mem _ List.mem_cons_self) hxy hn)
  · rintro (hbase | hn | hdatasets | ⟨x, hx, hbase | hagg⟩)
    · exact ⟨distinctOutputs_of_none hbase,
        readsBack_of_inside fun d _ => routingOutputDir_of_none hbase d⟩
    · refine ⟨fun d _ d' _ _ n hn' => ?_, readsBack_of fun _ _ _ d _ _ _ _ n hn' => ?_⟩
      · rw [hn] at hn'
        exact absurd hn' List.not_mem_nil
      · rw [hn] at hn'
        exact absurd hn' List.not_mem_nil
    · have hdirs : s.inputDirs = [] := by rw [inputDirs, hdatasets]; rfl
      refine ⟨fun d hd => ?_, fun _ _ _ _ d hd => ?_⟩
      · rw [hdirs] at hd
        exact absurd hd List.not_mem_nil
      · rw [hdirs] at hd
        exact absurd hd List.not_mem_nil
    · refine ⟨distinctOutputs_of_singleton hx, readsBack_of_inside fun d hd => ?_⟩
      rw [routingOutputDir_of_some hbase hd, eq_of_mem_singleton hx hd]
    · exact ⟨distinctOutputs_of_singleton hx,
        readsBack_of fun _ _ _ _ _ _ _ _ n hn hn' => absurd hn' (hagg n hn)⟩

/-- Two datasets with an output base directory. -/
def sharedBaseDir : GroupStep where
  datasets := [["a"], ["b"]]
  outputBaseDir := some ["out"]
  nodup := List.pairwise_pair.mpr (by decide)

/-- Both datasets write `out/expert_statistics/expert_group_routing/expert_group_ngram_n2.json`. -/
theorem outputs_not_read_back_shared : ¬ (sharedBaseDir.DistinctOutputs ∧ sharedBaseDir.ReadsBack) := by
  rintro ⟨hdistinct, -⟩
  have ha : ["a"] ∈ sharedBaseDir.datasets := by decide
  have hb : ["b"] ∈ sharedBaseDir.datasets := by decide
  refine hdistinct _ (mem_inputDirs ha) _ (mem_inputDirs hb) (by decide) 2 (by decide) 2 (by decide) ?_
  show ["out", "expert_statistics", "expert_group_routing"] ++ [ngramJson 2] =
    ["out", "expert_statistics", "expert_group_routing"] ++ [ngramJson 2]
  rfl

end GroupStep

end MoeSpecialization.Pipeline
