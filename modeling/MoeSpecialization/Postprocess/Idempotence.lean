import MoeSpecialization.Common.Tally
import MoeSpecialization.Postprocess.Step
import Mathlib.Data.Finset.Max
import Mathlib.Data.String.Basic

/-!
# Running the postprocessing step twice

A run leaves the outputs of the last sub-directory with JSON files. A second run differs from the first
in one thing: `expert_statistics` is now a sub-directory with a JSON file, which has no records. If it
was not there before the first run and sorts after all sub-directories with JSON files, the second run
ends with it, and what it leaves are the outputs of an empty folder.
-/

namespace MoeSpecialization.Postprocess

open Py

/-! ## Files without records -/

/-- A file that cannot be read or has no records. -/
def ExpertFile.isBlank : ExpertFile → Bool
  | .error _ => true
  | .ok data => data.records.isEmpty

section Stream

variable (info : TokenInfo) (tokenizer : Option Tokenizer) (eosTokenIds : List ℤ)

theorem tryFile_of_isBlank (run : StreamRun) {file : String × ExpertFile}
    (h : ExpertFile.isBlank file.2 = true) :
    (tryFile info tokenizer eosTokenIds run file).toStreamState = run.toStreamState := by
  obtain ⟨name, file⟩ := file
  cases file with
  | error e => rfl
  | ok data =>
    have hempty : data.records = [] := by simpa [ExpertFile.isBlank] using h
    have hexec : PyM.exec (processFile info tokenizer eosTokenIds (.ok data)) run.toStreamState =
        (run.toStreamState, none) := by
      rw [PyM.exec_eq_none, processFile, PyM.run_bind_of_ok (PyM.run_ofExcept_ok _ _), if_pos hempty]
      rfl
    rw [tryFile, hexec]

/-- The state after streaming over the files of a folder. -/
def streamFolder (folder : Folder) : StreamState :=
  ((sortedFiles folder).foldl (tryFile info tokenizer eosTokenIds) {}).toStreamState

/-- The state of the loop depends on the state before it only. -/
theorem foldl_tryFile_congr {run run' : StreamRun} (h : run.toStreamState = run'.toStreamState)
    (files : List (String × ExpertFile)) :
    (files.foldl (tryFile info tokenizer eosTokenIds) run).toStreamState =
      (files.foldl (tryFile info tokenizer eosTokenIds) run').toStreamState := by
  induction files generalizing run run' with
  | nil => exact h
  | cons file files ih =>
    refine ih ?_
    rw [tryFile, tryFile, h]
    cases PyM.exec (processFile info tokenizer eosTokenIds file.2) run'.toStreamState with
    | mk s e => cases e <;> rfl

theorem foldl_tryFile_filter (run : StreamRun) (files : List (String × ExpertFile)) :
    (files.foldl (tryFile info tokenizer eosTokenIds) run).toStreamState =
      ((files.filter fun f => !f.2.isBlank).foldl (tryFile info tokenizer eosTokenIds) run
        ).toStreamState := by
  induction files generalizing run with
  | nil => rfl
  | cons file files ih =>
    rw [List.foldl_cons, List.filter_cons]
    by_cases hblank : file.2.isBlank = true
    · simp only [hblank, Bool.not_true, Bool.false_eq_true, if_false]
      rw [← ih]
      exact foldl_tryFile_congr _ _ _ (tryFile_of_isBlank _ _ _ _ hblank) _
    · simp only [hblank, Bool.not_false, if_true, List.foldl_cons]
      exact ih _

theorem sortedFiles_eq_nil_iff {folder : Folder} : sortedFiles folder = [] ↔ folder.entries = [] := by
  have hlen : (sortedFiles folder).length = folder.entries.length := List.length_insertionSort _ _
  rw [← List.length_eq_zero_iff, hlen, List.length_eq_zero_iff]

/-- Two folders with the same files that are not blank have the same ones in order. -/
theorem filter_sortedFiles_congr {folder folder' : Folder} (p : String × ExpertFile → Bool)
    (h : folder.entries.filter p = folder'.entries.filter p) :
    (sortedFiles folder).filter p = (sortedFiles folder').filter p := by
  have hperm : ∀ f : Folder, ((sortedFiles f).filter p).Perm (f.entries.filter p) := fun f =>
    (List.perm_insertionSort _ _).filter p
  have hsorted : ∀ f : Folder, ((sortedFiles f).filter p).Pairwise (fun a b => a.1 ≤ b.1) :=
    fun f => (List.pairwise_insertionSort _ _).filter p
  refine List.Perm.eq_of_pairwise (fun a b ha hb hab hba => ?_) (hsorted folder) (hsorted folder')
    ((hperm folder).trans (h ▸ (hperm folder').symm))
  -- both stand under one name in `folder'`
  rw [(hperm folder).mem_iff, h] at ha
  rw [(hperm folder').mem_iff] at hb
  have ha := PyDict.get?_eq_some_iff.mpr (List.mem_filter.mp ha).1
  have hb := PyDict.get?_eq_some_iff.mpr (List.mem_filter.mp hb).1
  have hname : a.1 = b.1 := String.le_antisymm hab hba
  rw [hname, hb, Option.some.injEq] at ha
  exact Prod.ext hname ha.symm

/-- Storing a file without records over nothing, or over another file without records, changes
nothing. -/
theorem streamFolder_set {folder : Folder} {name : String} {file : ExpertFile}
    (hfile : file.isBlank = true) (hold : ∀ f, folder.get? name = some f → f.isBlank = true) :
    streamFolder info tokenizer eosTokenIds (folder.set name file) =
      streamFolder info tokenizer eosTokenIds folder := by
  rw [streamFolder, streamFolder, foldl_tryFile_filter, foldl_tryFile_filter _ _ _ _ (sortedFiles folder),
    filter_sortedFiles_congr]
  exact PyDict.filter_entries_set _ (by simp [hfile]) fun w hw => by simp [hold w hw]

end Stream

/-! ## Folders that contribute nothing -/

/-- The dictionaries do not become empty again. -/
def Keeps {α : Type} (x : PyM ExpertTotals α) : Prop :=
  PyM.Preserves (fun t t' => t ≠ ∅ → t' ≠ ∅) x

/-- The first of the ids that a part of the analysis reads decides what it does to empty dictionaries:
`null` raises before anything is counted, a valid expert is counted. -/
structure Reads {α : Type} (ids : List (Option ℤ)) (x : PyM ExpertTotals α) : Prop where
  nothing : ids = [] → ∀ t, ∃ a, x.run t = .ok a t
  null : ids.head? = some none → ∀ t, ∃ e, x.run t = .error e t
  counts : ∀ e, ids.head? = some (some e) → ∀ t, PyM.final x t ≠ ∅
  keeps : Keeps x

theorem ExpertTotals.addCount_ne (t : ExpertTotals) (l : ℕ) (e : ℤ) : t.addCount l e ≠ ∅ := by
  intro h
  have hentries := congrArg (fun t => t.layerExpertCounts.entries) h
  exact PyDict.entries_set_ne_nil _ _ _ hentries

theorem ExpertTotals.addWeight_ne (t : ExpertTotals) (l : ℕ) (e : ℤ) (w : ℚ) :
    t.addWeight l e w ≠ ∅ := by
  intro h
  have hentries := congrArg (fun t => t.layerExpertWeights.entries) h
  exact PyDict.entries_set_ne_nil _ _ _ hentries

/-- The ids that the analysis of a row does not pass over. -/
def relevantIds (ids : List (Option ℤ)) : List (Option ℤ) := ids.filter (·.all isValidExpert)

/-- A relation between dictionaries that every count establishes and no later addition destroys. -/
structure Growth (grew : ExpertTotals → ExpertTotals → Prop) : Prop where
  counted : ∀ t l e, grew t (t.addCount l e)
  addCount : ∀ t₀ t l e, grew t₀ t → grew t₀ (t.addCount l e)
  addWeight : ∀ t₀ t l e w, grew t₀ t → grew t₀ (t.addWeight l e w)

section Reads

variable {grew : ExpertTotals → ExpertTotals → Prop} (hgrew : Growth grew)

include hgrew

theorem countSlot_decides (layerIdx : ℕ) (id : Option ℤ) :
    PyM.FirstDecides grew (relevantIds [id]) (countSlot layerIdx id) := by
  cases id with
  | none => exact PyM.firstDecides_throw _
  | some e =>
    by_cases hv : isValidExpert e = true
    · have hids : relevantIds [some e] = [some e] := by simp [relevantIds, hv]
      simp only [hids, countSlot, if_pos hv]
      exact ⟨nofun, nofun, fun _ _ t => hgrew.counted t layerIdx e,
        fun t₀ => PyM.preserves_modify fun t => hgrew.addCount t₀ t layerIdx e⟩
    · have hids : relevantIds [some e] = [] := by simp [relevantIds, hv]
      simp only [hids, countSlot, if_neg hv]
      exact PyM.firstDecides_pure _

theorem weighSlot_keeps (layerIdx : ℕ) (slot : Option ℤ × Option ℚ) (t₀ : ExpertTotals) :
    PyM.Preserves (fun t t' => grew t₀ t → grew t₀ t') (weighSlot layerIdx slot) := by
  obtain ⟨id, w⟩ := slot
  cases id with
  | none => exact PyM.preserves_throw (fun _ => id) _
  | some e =>
    simp only [weighSlot]
    split
    · refine PyM.preserves_bind (PyM.grew_trans t₀) (PyM.preserves_ofExcept (fun _ => id) _) fun w => ?_
      exact PyM.preserves_modify fun t => hgrew.addWeight t₀ t layerIdx e w
    · exact PyM.preserves_pure (fun _ => id) _

omit hgrew in
theorem relevantIds_flatMap {α : Type} (xs : List α) (f : α → List (Option ℤ)) :
    relevantIds (xs.flatMap f) = xs.flatMap fun x => relevantIds (f x) := List.filter_flatMap

omit hgrew in
theorem relevantIds_eq_flatMap (ids : List (Option ℤ)) :
    relevantIds ids = ids.flatMap fun id => relevantIds [id] := by
  rw [← relevantIds_flatMap, List.flatMap_singleton']

theorem analyzeRow_decides (layerIdx : ℕ) (ids : Row ℤ) (weights : Row ℚ) :
    PyM.FirstDecides grew (relevantIds (ids.getD [])) (analyzeRow layerIdx ids weights) := by
  rw [analyzeRow_eq, ← List.append_nil (relevantIds _)]
  generalize ids.getD [] = ids
  generalize weights.getD [] = weights
  have hcount := PyM.firstDecides_forM (countSlot_decides hgrew layerIdx) ids
  rw [← relevantIds_eq_flatMap] at hcount
  refine PyM.firstDecides_bind_of_nil hcount (fun hnil _ => ?_) (fun _ => rfl) fun _ t₀ => ?_
  · -- no id of the row is relevant, so the weights are passed over too
    split
    · have hweigh : ∀ slot ∈ ids.zip weights, weighSlot layerIdx slot = pure () := by
        intro slot hslot
        have hid := List.filter_eq_nil_iff.mp hnil slot.1 (List.of_mem_zip hslot).1
        obtain ⟨id, w⟩ := slot
        cases id with
        | none => exact absurd rfl hid
        | some e =>
          simp only [Option.all_some] at hid
          simp only [weighSlot, if_neg hid]
      rw [PyM.forM_eq_pure hweigh]
      exact PyM.firstDecides_pure ()
    · exact PyM.firstDecides_pure ()
  · split
    · exact PyM.preserves_forM (fun _ => id) (PyM.grew_trans t₀) fun slot _ =>
        weighSlot_keeps hgrew layerIdx slot t₀
    · exact PyM.preserves_pure (fun _ => id) _

/-- The ids of the rows of a record. -/
def Record.ids (record : Record) : List (Option ℤ) :=
  record.topkIdsOfLayer.flatMap fun rows => rows.flatMap fun row => row.getD []

/-- The ids that the analysis reads, without those it passes over. -/
def readIds (records : List Record) (eosTokenIds : List ℤ) : List (Option ℤ) :=
  (records.filter (!·.isSkipped eosTokenIds)).flatMap fun record => relevantIds record.ids

omit hgrew in
theorem flatMap_zipIdx {α β : Type} (f : α → List β) (xs : List α) (n : ℕ) :
    ((xs.zipIdx n).flatMap fun p => f p.1) = xs.flatMap f := by
  induction xs generalizing n with
  | nil => rfl
  | cons x xs ih => rw [List.zipIdx_cons, List.flatMap_cons, ih, List.flatMap_cons]

theorem analyzeRecord_decides (eosTokenIds : List ℤ) (stats : Stats) (record : Record) :
    PyM.FirstDecides grew (if record.isSkipped eosTokenIds then [] else relevantIds record.ids)
      (analyzeRecord eosTokenIds stats record) := by
  unfold analyzeRecord
  by_cases hskip : record.isSkipped eosTokenIds = true
  · simp only [if_pos hskip]
    exact PyM.firstDecides_pure _
  · simp only [if_neg hskip]
    have hlayer : ∀ p : LayerRows ℤ × ℕ, PyM.FirstDecides grew (relevantIds (p.1.flatMap fun row => row.getD []))
        (analyzeLayer p.2 p.1 (record.topkWeightsOfLayer.getD p.2 [])) := by
      intro p
      have h := PyM.firstDecides_forM (fun q : Row ℤ × ℕ => analyzeRow_decides hgrew p.2 q.1
        ((record.topkWeightsOfLayer.getD p.2 []).getD q.2 none)) p.1.zipIdx
      rw [flatMap_zipIdx fun row : Row ℤ => relevantIds (row.getD []), ← relevantIds_flatMap] at h
      exact h
    have hlayers := PyM.firstDecides_forM hlayer record.topkIdsOfLayer.zipIdx
    rw [flatMap_zipIdx fun rows : LayerRows ℤ => relevantIds (rows.flatMap fun row => row.getD []),
      ← relevantIds_flatMap] at hlayers
    rw [← List.append_nil (relevantIds _)]
    exact PyM.firstDecides_bind hlayers fun _ => PyM.firstDecides_pure _

theorem analyzeExpertSelection_decides (records : List Record) (eosTokenIds : List ℤ) :
    PyM.FirstDecides grew (readIds records eosTokenIds)
      (analyzeExpertSelection records eosTokenIds) := by
  have h := PyM.firstDecides_foldlM (analyzeRecord_decides hgrew eosTokenIds) records 0
  have hids : (records.flatMap fun record =>
      if record.isSkipped eosTokenIds then [] else relevantIds record.ids) =
        readIds records eosTokenIds := by
    rw [readIds]
    clear h
    induction records with
    | nil => rfl
    | cons record records ih =>
      rw [List.flatMap_cons, ih, List.filter_cons]
      cases record.isSkipped eosTokenIds <;> simp
  rw [hids] at h
  exact h

end Reads

/-- After a count the dictionaries are not empty. -/
theorem growth_ne_empty : Growth fun _ t => t ≠ ∅ where
  counted t l e := t.addCount_ne l e
  addCount _ t l e _ := t.addCount_ne l e
  addWeight _ t l e w _ := t.addWeight_ne l e w

theorem analyzeExpertSelection_reads (records : List Record) (eosTokenIds : List ℤ) :
    Reads (readIds records eosTokenIds) (analyzeExpertSelection records eosTokenIds) := by
  have h := analyzeExpertSelection_decides growth_ne_empty records eosTokenIds
  exact ⟨h.nothing, h.null, h.counts, h.keeps ∅⟩

/-- Something was counted, or the output file was made. -/
def StreamState.Contributed (s : StreamState) : Prop := s.totals ≠ ∅ ∨ s.outputFile.isSome

/-- Nothing was counted, written or aligned yet. -/
structure StreamState.Idle (s : StreamState) : Prop where
  index_eq : s.globalTokenIndex = 0
  totals_eq : s.totals = ∅
  outputFile_eq : s.outputFile = none

theorem StreamState.Idle.not_contributed {s : StreamState} (h : s.Idle) : ¬ s.Contributed := by
  rintro (ht | hf)
  · exact ht h.totals_eq
  · simp [h.outputFile_eq] at hf

theorem contributed_trans (s s' s'' : StreamState) (h : s.Contributed → s'.Contributed)
    (h' : s'.Contributed → s''.Contributed) : s.Contributed → s''.Contributed := fun hs => h' (h hs)

/-- Opening the output file makes it. -/
theorem final_saveResultsJsonl (alignedData : List Record) (file : OutputFile) :
    (PyM.final (saveResultsJsonl alignedData true) file).isSome := by
  have hloop : PyM.Preserves (fun f f' : OutputFile => f.isSome → f'.isSome)
      (alignedData.forM fun record => do
        let line ← PyM.ofExcept (convertRecordToOutputFormat record)
        modify fun file => some (file.getD [] ++ [line])) := by
    refine PyM.preserves_forM (fun _ => id) (fun _ _ _ h h' hf => h' (h hf)) fun record _ => ?_
    refine PyM.preserves_bind (fun _ _ _ h h' hf => h' (h hf))
      (PyM.preserves_ofExcept (fun _ => id) _) fun line => ?_
    exact PyM.preserves_modify fun _ _ => rfl
  rw [saveResultsJsonl, PyM.final, PyM.run_bind_of_ok (PyM.run_modify _ _)]
  exact hloop _ rfl

section Contribution

variable (info : TokenInfo) (tokenizer : Option Tokenizer) (eosTokenIds : List ℤ)

theorem analyze_contributed (aligned : List Record) :
    PyM.Preserves (fun s s' : StreamState => s.Contributed → s'.Contributed)
      (PyM.zoom StreamState.totals StreamState.setTotals
        (analyzeExpertSelection aligned eosTokenIds)) := by
  intro s
  rw [PyM.final_zoom]
  exact Or.imp_left ((analyzeExpertSelection_reads aligned eosTokenIds).keeps s.totals)

theorem save_contributed (aligned : List Record) (s : StreamState) :
    (PyM.final (PyM.zoom StreamState.outputFile StreamState.setOutputFile
      (saveResultsJsonl aligned true)) s).Contributed := by
  rw [PyM.final_zoom]
  exact Or.inr (final_saveResultsJsonl aligned s.outputFile)

/-- What `process_files_streaming` does with a file once its records are aligned. -/
def countAndSave (aligned : List Record) (data : ExpertData) : PyM StreamState Unit := do
  let stats ← PyM.zoom StreamState.totals StreamState.setTotals
    (analyzeExpertSelection aligned eosTokenIds)
  modify fun s => { s with
    totalProcessed := s.totalProcessed + stats.processed
    totalSkipped := s.totalSkipped + stats.skipped }
  PyM.zoom StreamState.outputFile StreamState.setOutputFile (saveResultsJsonl aligned true)
  modify fun s => { s with globalTokenIndex := s.globalTokenIndex + data.records.length }

/-- The saving after the count, and the moving of the index, take nothing back. -/
theorem saveCounted_contributed (aligned : List Record) (data : ExpertData) (stats : Stats) :
    PyM.Preserves (fun s s' : StreamState => s.Contributed → s'.Contributed) (do
      modify fun s => { s with
        totalProcessed := s.totalProcessed + stats.processed
        totalSkipped := s.totalSkipped + stats.skipped }
      PyM.zoom StreamState.outputFile StreamState.setOutputFile (saveResultsJsonl aligned true)
      modify fun s => { s with globalTokenIndex := s.globalTokenIndex + data.records.length }) := by
  refine PyM.preserves_bind contributed_trans (PyM.preserves_modify fun s h => h) fun _ => ?_
  refine PyM.preserves_bind contributed_trans (fun s _ => save_contributed aligned s) fun _ => ?_
  exact PyM.preserves_modify fun s h => h

theorem countAndSave_contributed (aligned : List Record) (data : ExpertData) :
    PyM.Preserves (fun s s' : StreamState => s.Contributed → s'.Contributed)
      (countAndSave eosTokenIds aligned data) :=
  PyM.preserves_bind contributed_trans (analyze_contributed eosTokenIds aligned)
    (saveCounted_contributed aligned data)

/-- From an idle state, a file either contributes or raises at a `null` that precedes all valid ids. -/
theorem countAndSave_of_idle (aligned : List Record) (data : ExpertData) {s : StreamState}
    (hs : s.Idle) :
    ((readIds aligned eosTokenIds).head? = some none →
      (PyM.final (countAndSave eosTokenIds aligned data) s).Idle) ∧
    ((readIds aligned eosTokenIds).head? ≠ some none →
      (PyM.final (countAndSave eosTokenIds aligned data) s).Contributed) := by
  have hreads := analyzeExpertSelection_reads aligned eosTokenIds
  refine ⟨fun hnull => ?_, fun hnull => ?_⟩
  · obtain ⟨e, he⟩ := hreads.null hnull s.totals
    rw [countAndSave, PyM.final, PyM.run_bind_of_error (PyM.run_zoom_of_error he)]
    exact hs
  · cases hids : (readIds aligned eosTokenIds).head? with
    | none =>
      -- nothing to count: the analysis returns and the output file is made
      obtain ⟨stats, hstats⟩ := hreads.nothing (List.head?_eq_none_iff.mp hids) s.totals
      rw [countAndSave, PyM.final, PyM.run_bind_of_ok (PyM.run_zoom_eq_ok.mpr ⟨_, hstats, rfl⟩),
        PyM.run_bind_of_ok (PyM.run_modify _ _)]
      exact PyM.final_bind_of (P := StreamState.Contributed) (save_contributed aligned _)
        fun _ => PyM.preserves_modify fun s h => h
    | some id =>
      cases id with
      | none => exact absurd hids hnull
      | some e =>
        have hcount : (PyM.final (PyM.zoom StreamState.totals StreamState.setTotals
            (analyzeExpertSelection aligned eosTokenIds)) s).Contributed := by
          rw [PyM.final_zoom]
          exact Or.inl (hreads.counts e hids s.totals)
        exact PyM.final_bind_of (P := StreamState.Contributed) hcount
          (saveCounted_contributed aligned data)

/-- The file has records, and the first of their ids that is not passed over, if there is one, is not
`null`. -/
def FileContributes : ExpertFile → Prop
  | .error _ => False
  | .ok data => data.records ≠ [] ∧
    (readIds (alignTokensWithExpertsStreaming info tokenizer data.records 0) eosTokenIds).head? ≠
      some none

/-- Some token is to be aligned, and some file of the folder contributes. -/
def Contributes (folder : Folder) : Prop :=
  info.allTokenIds ≠ [] ∧ ∃ file ∈ folder.entries, FileContributes info tokenizer eosTokenIds file.2

theorem final_processFile {data : ExpertData} (hrecords : data.records ≠ []) (s : StreamState) :
    PyM.final (processFile info tokenizer eosTokenIds (.ok data)) s =
      let aligned := alignTokensWithExpertsStreaming info tokenizer data.records s.globalTokenIndex
      PyM.final (if aligned = [] then
          modify fun s => { s with globalTokenIndex := s.globalTokenIndex + data.records.length }
        else countAndSave eosTokenIds aligned data)
        { s with alignedData := s.alignedData ++ [aligned] } := by
  rw [processFile, PyM.final, PyM.run_bind_of_ok (PyM.run_ofExcept_ok _ _), if_neg hrecords,
    PyM.run_bind_of_ok (PyM.run_get _), PyM.run_bind_of_ok (PyM.run_modify _ _)]
  rfl

theorem toStreamState_tryFile (run : StreamRun) (file : String × ExpertFile) :
    (tryFile info tokenizer eosTokenIds run file).toStreamState =
      PyM.final (processFile info tokenizer eosTokenIds file.2) run.toStreamState := by
  rw [tryFile, PyM.exec, PyM.final]
  cases (processFile info tokenizer eosTokenIds file.2).run run.toStreamState <;> rfl

theorem tryFile_contributed {run : StreamRun} (file : String × ExpertFile)
    (h : run.toStreamState.Contributed) :
    (tryFile info tokenizer eosTokenIds run file).toStreamState.Contributed := by
  by_cases hblank : file.2.isBlank = true
  · rwa [tryFile_of_isBlank info tokenizer eosTokenIds run hblank]
  · rw [toStreamState_tryFile]
    cases hfile : file.2 with
    | error e => simp [hfile, ExpertFile.isBlank] at hblank
    | ok data =>
      have hrecords : data.records ≠ [] := by simpa [hfile, ExpertFile.isBlank] using hblank
      rw [final_processFile _ _ _ hrecords]
      simp only
      split
      · exact h
      · exact countAndSave_contributed _ _ _ _ h

theorem foldl_tryFile_contributed {run : StreamRun} (files : List (String × ExpertFile))
    (h : run.toStreamState.Contributed) :
    (files.foldl (tryFile info tokenizer eosTokenIds) run).toStreamState.Contributed := by
  induction files generalizing run with
  | nil => exact h
  | cons file files ih => exact ih (tryFile_contributed info tokenizer eosTokenIds file h)

/-- Without tokens nothing is aligned, so nothing is counted or written. -/
theorem tryFile_of_no_tokens (htokens : info.allTokenIds = []) {run : StreamRun}
    (file : String × ExpertFile) (h : ¬ run.toStreamState.Contributed) :
    ¬ (tryFile info tokenizer eosTokenIds run file).toStreamState.Contributed := by
  by_cases hblank : file.2.isBlank = true
  · rwa [tryFile_of_isBlank info tokenizer eosTokenIds run hblank]
  · rw [toStreamState_tryFile]
    cases hfile : file.2 with
    | error e => simp [hfile, ExpertFile.isBlank] at hblank
    | ok data =>
      have hrecords : data.records ≠ [] := by simpa [hfile, ExpertFile.isBlank] using hblank
      rw [final_processFile _ _ _ hrecords]
      simp only [alignStreaming_of_le info tokenizer data.records
        (by simp [htokens] : info.allTokenIds.length ≤ run.toStreamState.globalTokenIndex), if_true]
      exact h

theorem tryFile_of_idle (htokens : info.allTokenIds ≠ []) {run : StreamRun}
    (file : String × ExpertFile) (h : run.toStreamState.Idle) :
    (¬ FileContributes info tokenizer eosTokenIds file.2 →
      (tryFile info tokenizer eosTokenIds run file).toStreamState.Idle) ∧
    (FileContributes info tokenizer eosTokenIds file.2 →
      (tryFile info tokenizer eosTokenIds run file).toStreamState.Contributed) := by
  rw [toStreamState_tryFile]
  cases hfile : file.2 with
  | error e => exact ⟨fun _ => h, False.elim⟩
  | ok data =>
    by_cases hrecords : data.records = []
    · refine ⟨fun _ => ?_, fun hc => absurd hrecords hc.1⟩
      rw [processFile, PyM.final, PyM.run_bind_of_ok (PyM.run_ofExcept_ok _ _), if_pos hrecords]
      exact h
    · have haligned : alignTokensWithExpertsStreaming info tokenizer data.records 0 ≠ [] := by
        have hlen := length_alignStreaming info tokenizer data.records 0
        have h1 := List.length_pos_iff.mpr htokens
        have h2 := List.length_pos_iff.mpr hrecords
        exact List.ne_nil_of_length_pos (by omega)
      rw [final_processFile _ _ _ hrecords, h.index_eq]
      simp only [if_neg haligned]
      refine ⟨fun hc => ?_, fun hc => ?_⟩
      · refine (countAndSave_of_idle eosTokenIds _ data ?_).1 ?_
        · exact ⟨rfl, h.totals_eq, h.outputFile_eq⟩
        · by_contra hnull
          exact hc ⟨hrecords, hnull⟩
      · refine (countAndSave_of_idle eosTokenIds _ data ?_).2 hc.2
        exact ⟨rfl, h.totals_eq, h.outputFile_eq⟩

/-- Streaming over a folder counts or writes something if and only if the folder contributes. -/
theorem streamFolder_contributed_iff (folder : Folder) :
    (streamFolder info tokenizer eosTokenIds folder).Contributed ↔
      Contributes info tokenizer eosTokenIds folder := by
  have hmem : ∀ file, file ∈ sortedFiles folder ↔ file ∈ folder.entries := fun file =>
    (List.perm_insertionSort _ _).mem_iff
  have hinit : StreamState.Idle {} := ⟨rfl, rfl, rfl⟩
  simp only [Contributes, streamFolder, ← hmem]
  generalize sortedFiles folder = files
  by_cases htokens : info.allTokenIds = []
  · refine iff_of_false ?_ fun h => h.1 htokens
    have key : ∀ run : StreamRun, ¬ run.toStreamState.Contributed →
        ¬ (files.foldl (tryFile info tokenizer eosTokenIds) run).toStreamState.Contributed := by
      induction files with
      | nil => exact fun _ h => h
      | cons file files ih =>
        exact fun run h => ih _ (tryFile_of_no_tokens info tokenizer eosTokenIds htokens file h)
    exact key {} hinit.not_contributed
  · have key : ∀ run : StreamRun, run.toStreamState.Idle →
        ((files.foldl (tryFile info tokenizer eosTokenIds) run).toStreamState.Contributed ↔
          ∃ file ∈ files, FileContributes info tokenizer eosTokenIds file.2) := by
      induction files with
      | nil => exact fun run h => iff_of_false h.not_contributed (by simp)
      | cons file files ih =>
        intro run h
        obtain ⟨hsilent, hloud⟩ := tryFile_of_idle info tokenizer eosTokenIds htokens file h
        rw [List.foldl_cons]
        by_cases hc : FileContributes info tokenizer eosTokenIds file.2
        · exact iff_of_true (foldl_tryFile_contributed _ _ _ files (hloud hc)) ⟨file, by simp, hc⟩
        · rw [ih _ (hsilent hc)]
          simp [hc]
    rw [key {} hinit]
    simp [htokens]

theorem outputs_eq_empty_iff (s : StreamState) :
    s.outputs = StreamState.outputs {} ↔ ¬ s.Contributed := by
  rw [StreamState.Contributed, not_or, not_not]
  constructor
  · intro h
    refine ⟨Option.some.inj (congrArg Outputs.expertStatistics h), ?_⟩
    have hfile : s.outputFile = none := congrArg Outputs.resultsAll h
    simp [hfile]
  · rintro ⟨ht, hf⟩
    have hfile : s.outputFile = none := by simpa using hf
    simp only [StreamState.outputs, ht, hfile]

end Contribution

/-! ## One call -/

/-- The token list that all calls of the step share, if the inference file can be loaded. -/
def StepEnv.info? {ν : Type} (env : StepEnv ν) : Option TokenInfo :=
  env.inferenceResults.toOption.bind fun results => (prepareTokenInfo results none).toOption

/-- What streaming over a folder leaves, with the token list of the step. -/
def StepEnv.stream {ν : Type} (env : StepEnv ν) (info : TokenInfo) (folder : Folder) : Outputs :=
  (streamFolder info env.tokenizer (getEosTokenIds env.tokenizer) folder).outputs

namespace FirstLevelDir

variable {ν : Type} [LinearOrder ν] {env : StepEnv ν}

/-- The sub-directory has a JSON file. -/
def HasJson (s : FirstLevelDir ν) (name : ν) : Prop := (s.folder name).entries ≠ []

instance (s : FirstLevelDir ν) (name : ν) : Decidable (s.HasJson name) :=
  inferInstanceAs (Decidable (_ ≠ _))

/-- The statistics file of an earlier run, if there is one, holds no records. -/
def OwnBlank (env : StepEnv ν) (s : FirstLevelDir ν) : Prop :=
  ∀ f, (s.folder env.expertStatistics).get? "expert_statistics.json" = some f → f.isBlank = true

theorem HasJson.mem_keys {s : FirstLevelDir ν} {name : ν} (h : s.HasJson name) :
    name ∈ s.subdirs.keys := by
  rw [← PyDict.get?_isSome_iff]
  cases hget : s.subdirs.get? name with
  | some f => rfl
  | none => exact absurd (by rw [folder, PyDict.getD, hget]; rfl) h

@[simp] theorem folder_makeOutputDir (s : FirstLevelDir ν) (name : ν) :
    (s.makeOutputDir env).folder name = s.folder name := by
  rw [folder, makeOutputDir, PyDict.getD_modify]
  split
  · rename_i h
    rw [h]
    rfl
  · rfl

theorem hasJson_makeOutputDir (s : FirstLevelDir ν) (name : ν) :
    (s.makeOutputDir env).HasJson name ↔ s.HasJson name := by
  rw [HasJson, folder_makeOutputDir, HasJson]

@[simp] theorem outputs_makeOutputDir (s : FirstLevelDir ν) :
    (s.makeOutputDir env).outputs = s.outputs := rfl

theorem folder_save (s : FirstLevelDir ν) (out : Outputs) (name : ν) :
    (s.save env out).folder name =
      if name = env.expertStatistics then
        (s.folder env.expertStatistics).set "expert_statistics.json" (.ok {})
      else s.folder name := by
  rw [folder, save, PyDict.getD_modify]
  rfl

/-- One iteration of the loop of `run_postprocess`. -/
def call (env : StepEnv ν) (s : FirstLevelDir ν) (name : ν) : FirstLevelDir ν :=
  (PyM.exec (main env name) s).1

/-- A call either fails, having made the output directory, or writes the outputs of its folder. -/
theorem call_of_not_hasJson {s : FirstLevelDir ν} {name : ν} (h : ¬ s.HasJson name) :
    s.call env name = s.makeOutputDir env := by
  have hempty : sortedFiles ((s.makeOutputDir env).folder name) = [] := by
    rw [folder_makeOutputDir, sortedFiles_eq_nil_iff]
    exact not_not.mp h
  rw [call, main, PyM.exec, PyM.run_bind_of_ok (PyM.run_modify _ _)]
  cases env.inferenceResults with
  | error e => rfl
  | ok results =>
    rw [PyM.run_bind_of_ok (PyM.run_ofExcept_ok _ _)]
    cases prepareTokenInfo results none with
    | error e => rfl
    | ok info =>
      rw [PyM.run_bind_of_ok (PyM.run_ofExcept_ok _ _), PyM.run_bind_of_ok (PyM.run_get _),
        processFilesStreaming, if_pos hempty]
      rfl

theorem call_of_info_none {s : FirstLevelDir ν} {name : ν} (h : env.info? = none) :
    s.call env name = s.makeOutputDir env := by
  rw [call, main, PyM.exec, PyM.run_bind_of_ok (PyM.run_modify _ _)]
  unfold StepEnv.info? at h
  cases hres : env.inferenceResults with
  | error e => rfl
  | ok results =>
    rw [PyM.run_bind_of_ok (PyM.run_ofExcept_ok _ _)]
    cases hprep : prepareTokenInfo results none with
    | error e => rfl
    | ok info => simp [hres, hprep, Except.toOption] at h

theorem call_of_hasJson {s : FirstLevelDir ν} {name : ν} {info : TokenInfo}
    (hinfo : env.info? = some info) (h : s.HasJson name) :
    s.call env name = (s.makeOutputDir env).save env (env.stream info (s.folder name)) := by
  have hne : ¬ sortedFiles ((s.makeOutputDir env).folder name) = [] := by
    rw [folder_makeOutputDir, sortedFiles_eq_nil_iff]
    exact h
  rw [call, main, PyM.exec, PyM.run_bind_of_ok (PyM.run_modify _ _)]
  unfold StepEnv.info? at hinfo
  cases hres : env.inferenceResults with
  | error e => simp [hres, Except.toOption] at hinfo
  | ok results =>
    rw [PyM.run_bind_of_ok (PyM.run_ofExcept_ok _ _)]
    cases hprep : prepareTokenInfo results none with
    | error e => simp [hres, hprep, Except.toOption] at hinfo
    | ok info' =>
      have hsame : info' = info := by simpa [hres, hprep, Except.toOption] using hinfo
      subst hsame
      rw [PyM.run_bind_of_ok (PyM.run_ofExcept_ok _ _), PyM.run_bind_of_ok (PyM.run_get _),
        processFilesStreaming, if_neg hne, folder_makeOutputDir]
      rfl

/-! ## A whole run -/

/-- What the calls of a run do to the folders: nothing, but for the statistics file. -/
structure Along (env : StepEnv ν) (s s' : FirstLevelDir ν) : Prop where
  other : ∀ name, name ≠ env.expertStatistics → s'.folder name = s.folder name
  own : s'.folder env.expertStatistics = s.folder env.expertStatistics ∨
    s'.folder env.expertStatistics =
      (s.folder env.expertStatistics).set "expert_statistics.json" (.ok {})
  keys : ∀ name, name ≠ env.expertStatistics → (name ∈ s'.subdirs.keys ↔ name ∈ s.subdirs.keys)

theorem Along.refl (s : FirstLevelDir ν) : Along env s s :=
  ⟨fun _ _ => rfl, Or.inl rfl, fun _ _ => Iff.rfl⟩

theorem Along.trans {s s' s'' : FirstLevelDir ν} (h : Along env s s') (h' : Along env s' s'') :
    Along env s s'' := by
  refine ⟨fun n hn => (h'.other n hn).trans (h.other n hn), ?_,
    fun n hn => (h'.keys n hn).trans (h.keys n hn)⟩
  rcases h.own with h₁ | h₁ <;> rcases h'.own with h₂ | h₂ <;> rw [h₂, h₁]
  · exact Or.inl rfl
  · exact Or.inr rfl
  · exact Or.inr rfl
  · exact Or.inr (PyDict.set_set _ _ _ _)

theorem along_makeOutputDir (s : FirstLevelDir ν) : Along env s (s.makeOutputDir env) :=
  ⟨fun n _ => folder_makeOutputDir s n, Or.inl (folder_makeOutputDir s _),
    fun n hn => by rw [makeOutputDir, PyDict.modify, PyDict.mem_keys_set]; simp [hn]⟩

theorem along_save (s : FirstLevelDir ν) (out : Outputs) : Along env s (s.save env out) :=
  ⟨fun n hn => by rw [folder_save, if_neg hn], Or.inr (by rw [folder_save, if_pos rfl]),
    fun n hn => by rw [save, PyDict.modify, PyDict.mem_keys_set]; simp [hn]⟩

theorem along_call (s : FirstLevelDir ν) (name : ν) : Along env s (s.call env name) := by
  cases hinfo : env.info? with
  | none => rw [call_of_info_none hinfo]; exact along_makeOutputDir s
  | some info =>
    by_cases hjson : s.HasJson name
    · rw [call_of_hasJson hinfo hjson]
      exact (along_makeOutputDir s).trans (along_save _ _)
    · rw [call_of_not_hasJson hjson]
      exact along_makeOutputDir s

theorem along_foldl (names : List ν) (s : FirstLevelDir ν) :
    Along env s (names.foldl (call env) s) := by
  induction names generalizing s with
  | nil => exact .refl s
  | cons name names ih => exact (along_call s name).trans (ih _)

theorem Along.ownBlank {s s' : FirstLevelDir ν} (h : Along env s s') (hs : s.OwnBlank env) :
    s'.OwnBlank env := by
  intro f hf
  rcases h.own with hown | hown
  · exact hs f (hown ▸ hf)
  · rw [hown, PyDict.get?_set_self] at hf
    cases hf
    rfl

theorem Along.hasJson_iff {s s' : FirstLevelDir ν} (h : Along env s s') {name : ν}
    (hname : name ≠ env.expertStatistics) : s'.HasJson name ↔ s.HasJson name := by
  rw [HasJson, h.other name hname, HasJson]

/-- The statistics file does not count: the outputs of the folder are those without it. -/
theorem Along.stream_own {s s' : FirstLevelDir ν} (h : Along env s s') (hs : s.OwnBlank env)
    (info : TokenInfo) :
    env.stream info (s'.folder env.expertStatistics) =
      env.stream info (s.folder env.expertStatistics) := by
  rcases h.own with hown | hown
  · rw [hown]
  · rw [hown, StepEnv.stream, streamFolder_set _ _ _ rfl hs]
    rfl

/-- Calls on sub-directories of which only `expert_statistics` can have JSON files. -/
theorem outputs_foldl_of_no_json {info : TokenInfo} (hinfo : env.info? = some info) {names : List ν}
    (hnodup : names.Nodup) {s : FirstLevelDir ν}
    (hjson : ∀ name ∈ names, name ≠ env.expertStatistics → ¬ s.HasJson name) :
    (names.foldl (call env) s).outputs =
      if env.expertStatistics ∈ names ∧ s.HasJson env.expertStatistics then
        env.stream info (s.folder env.expertStatistics)
      else s.outputs := by
  induction names generalizing s with
  | nil => simp
  | cons name names ih =>
    rw [List.nodup_cons] at hnodup
    have hrest : ∀ n ∈ names, n ≠ env.expertStatistics → ¬ (s.call env name).HasJson n := by
      intro n hn hne
      rw [(along_call s name).hasJson_iff hne]
      exact hjson n (by simp [hn]) hne
    rw [List.foldl_cons, ih hnodup.2 hrest]
    by_cases hname : name = env.expertStatistics
    · -- this call decides, since the name does not come again
      subst hname
      rw [if_neg (fun h => hnodup.1 h.1)]
      by_cases hown : s.HasJson env.expertStatistics
      · rw [if_pos ⟨by simp, hown⟩, call_of_hasJson hinfo hown]
        rfl
      · rw [if_neg (fun h => hown h.2), call_of_not_hasJson hown]
        rfl
    · rw [call_of_not_hasJson (hjson name (by simp) hname)]
      simp only [hasJson_makeOutputDir, folder_makeOutputDir, outputs_makeOutputDir, List.mem_cons,
        Ne.symm hname, false_or]

/-- The last sub-directory with JSON files, `expert_statistics` apart. -/
structure IsLast (env : StepEnv ν) (s : FirstLevelDir ν) (last : ν) : Prop where
  ne : last ≠ env.expertStatistics
  hasJson : s.HasJson last
  le : ∀ name, name ≠ env.expertStatistics → s.HasJson name → name ≤ last

theorem glob_nodup (s : FirstLevelDir ν) : s.glob.Nodup :=
  ((List.perm_insertionSort _ _).nodup_iff).mpr s.subdirs.nodup_keys

theorem glob_sorted (s : FirstLevelDir ν) : s.glob.Pairwise (· < ·) := by
  have hle : s.glob.Pairwise (· ≤ ·) := List.pairwise_insertionSort _ _
  exact (hle.and s.glob_nodup).imp fun h => lt_of_le_of_ne h.1 h.2

/-- What comes after an element of an increasing list. -/
theorem mem_after_iff {before after : List ν} {a b : ν}
    (hsorted : (before ++ a :: after).Pairwise (· < ·)) :
    b ∈ after ↔ b ∈ before ++ a :: after ∧ a < b := by
  obtain ⟨-, htail, hcross⟩ := List.pairwise_append.mp hsorted
  constructor
  · intro h
    exact ⟨by simp [h], (List.pairwise_cons.mp htail).1 b h⟩
  · rintro ⟨h, hlt⟩
    rcases List.mem_append.mp h with h | h
    · exact absurd (hcross b h a (by simp)) (not_lt.mpr hlt.le)
    · exact (List.mem_cons.mp h).resolve_left hlt.ne'

theorem mem_glob {s : FirstLevelDir ν} {name : ν} : name ∈ s.glob ↔ name ∈ s.subdirs.keys :=
  (List.perm_insertionSort _ _).mem_iff

theorem runPostprocess_eq (s : FirstLevelDir ν) :
    s.runPostprocess env = s.glob.foldl (call env) s := rfl

/-- A run with no JSON files outside `expert_statistics`. -/
theorem outputs_run_of_no_json {info : TokenInfo} (hinfo : env.info? = some info)
    {s : FirstLevelDir ν} (hjson : ∀ name, name ≠ env.expertStatistics → ¬ s.HasJson name) :
    (s.runPostprocess env).outputs =
      if s.HasJson env.expertStatistics then env.stream info (s.folder env.expertStatistics)
      else s.outputs := by
  rw [runPostprocess_eq, outputs_foldl_of_no_json hinfo s.glob_nodup fun name _ => hjson name]
  by_cases hown : s.HasJson env.expertStatistics
  · rw [if_pos ⟨mem_glob.mpr hown.mem_keys, hown⟩, if_pos hown]
  · rw [if_neg (fun h => hown h.2), if_neg hown]

/-- A run with JSON files outside `expert_statistics`: the last of these sub-directories decides, unless
`expert_statistics` is there and comes after it. -/
theorem outputs_run_of_isLast {info : TokenInfo} (hinfo : env.info? = some info)
    {s : FirstLevelDir ν} (hs : s.OwnBlank env) {last : ν} (hlast : IsLast env s last) :
    (s.runPostprocess env).outputs =
      if env.expertStatistics ∈ s.subdirs.keys ∧ last < env.expertStatistics then
        env.stream info (s.folder env.expertStatistics)
      else env.stream info (s.folder last) := by
  obtain ⟨before, after, hglob⟩ := List.append_of_mem (mem_glob.mpr hlast.hasJson.mem_keys)
  have hsorted := s.glob_sorted
  rw [hglob] at hsorted
  -- the calls up to `last`: the outputs are then those of `last`
  have halong : Along env s (before.foldl (call env) s) := along_foldl before s
  have hcall : (before.foldl (call env) s).call env last =
      ((before.foldl (call env) s).makeOutputDir env).save env (env.stream info (s.folder last)) := by
    rw [call_of_hasJson hinfo ((halong.hasJson_iff hlast.ne).mpr hlast.hasJson),
      halong.other last hlast.ne]
  have halong' : Along env s ((before.foldl (call env) s).call env last) :=
    halong.trans (along_call _ last)
  have hown : ((before.foldl (call env) s).call env last).HasJson env.expertStatistics := by
    rw [hcall, HasJson, folder_save, if_pos rfl]
    exact PyDict.entries_set_ne_nil _ _ _
  -- of the calls after it, only one on `expert_statistics` can write
  have hafter : ∀ name ∈ after, name ≠ env.expertStatistics →
      ¬ ((before.foldl (call env) s).call env last).HasJson name := by
    intro name hname hne hjson
    rw [halong'.hasJson_iff hne] at hjson
    exact absurd ((mem_after_iff hsorted).mp hname).2 (not_lt.mpr (hlast.le name hne hjson))
  have hmem : env.expertStatistics ∈ after ↔
      env.expertStatistics ∈ s.subdirs.keys ∧ last < env.expertStatistics := by
    rw [mem_after_iff hsorted, ← hglob, mem_glob]
  have hafterNodup : after.Nodup :=
    (List.pairwise_cons.mp (List.pairwise_append.mp hsorted).2.1).2.imp ne_of_lt
  rw [runPostprocess_eq, hglob, List.foldl_append, List.foldl_cons,
    outputs_foldl_of_no_json hinfo hafterNodup hafter, halong'.stream_own hs]
  simp only [hmem, hown, and_true]
  congr 1
  rw [hcall]
  rfl

/-! ## The second run -/

/-- The second run leaves the outputs as the first run left them. -/
def Idempotent (env : StepEnv ν) (s : FirstLevelDir ν) : Prop :=
  ((s.runPostprocess env).runPostprocess env).outputs = (s.runPostprocess env).outputs

theorem along_run (s : FirstLevelDir ν) : Along env s (s.runPostprocess env) := along_foldl _ s

theorem Along.isLast {s s' : FirstLevelDir ν} (h : Along env s s') {last : ν}
    (hlast : IsLast env s last) : IsLast env s' last :=
  ⟨hlast.ne, (h.hasJson_iff hlast.ne).mpr hlast.hasJson,
    fun n hn hj => hlast.le n hn ((h.hasJson_iff hn).mp hj)⟩

/-- There is a last sub-directory with JSON files, if there is any. -/
theorem exists_isLast {s : FirstLevelDir ν} {name : ν} (hname : name ≠ env.expertStatistics)
    (hjson : s.HasJson name) : ∃ last, IsLast env s last := by
  obtain ⟨last, hmem, hmax⟩ := Finset.exists_max_image
    (s.subdirs.keys.toFinset.filter fun n => n ≠ env.expertStatistics ∧ s.HasJson n) id
    ⟨name, by simp [hname, hjson, hjson.mem_keys]⟩
  obtain ⟨-, hne, hlast⟩ := Finset.mem_filter.mp hmem
  exact ⟨last, hne, hlast, fun n hn hj => hmax n (by simp [hn, hj, hj.mem_keys])⟩

/-- A run on some sub-directory makes the output directory. -/
theorem mem_keys_call (s : FirstLevelDir ν) (name : ν) :
    env.expertStatistics ∈ (s.call env name).subdirs.keys := by
  have hmake : env.expertStatistics ∈ (s.makeOutputDir env).subdirs.keys := by
    rw [makeOutputDir, PyDict.modify, PyDict.mem_keys_set]
    exact Or.inr rfl
  cases hinfo : env.info? with
  | none => rw [call_of_info_none hinfo]; exact hmake
  | some info =>
    by_cases hjson : s.HasJson name
    · rw [call_of_hasJson hinfo hjson, save, PyDict.modify, PyDict.mem_keys_set]
      exact Or.inr rfl
    · rw [call_of_not_hasJson hjson]
      exact hmake

theorem mem_keys_run {s : FirstLevelDir ν} {name : ν} (h : name ∈ s.subdirs.keys) :
    env.expertStatistics ∈ (s.runPostprocess env).subdirs.keys := by
  rw [runPostprocess_eq]
  obtain ⟨init, last, hglob⟩ := List.eq_nil_or_concat s.glob |>.resolve_left
    (List.ne_nil_of_mem (mem_glob.mpr h))
  rw [hglob, List.concat_eq_append, List.foldl_append]
  exact mem_keys_call _ last

/-- A directory that does not exist has no files. -/
theorem folder_of_notMem {s : FirstLevelDir ν} {name : ν} (h : name ∉ s.subdirs.keys) :
    s.folder name = ∅ := by
  rw [← PyDict.get?_isSome_iff, Option.not_isSome_iff_eq_none] at h
  rw [folder, PyDict.getD, h]
  rfl

/-- If no sub-directory has JSON files, none has after a run. -/
theorem not_hasJson_run {s : FirstLevelDir ν} (h : ∀ name, ¬ s.HasJson name) (name : ν) :
    ¬ (s.runPostprocess env).HasJson name := by
  rw [runPostprocess_eq]
  generalize s.glob = names
  induction names generalizing s with
  | nil => exact h name
  | cons n names ih =>
    rw [List.foldl_cons, call_of_not_hasJson (h n)]
    exact ih fun n' => (hasJson_makeOutputDir s n').not.mpr (h n')

/-- The outputs of a run when the inference file cannot be loaded. -/
theorem outputs_run_of_info_none (h : env.info? = none) (s : FirstLevelDir ν) :
    (s.runPostprocess env).outputs = s.outputs := by
  rw [runPostprocess_eq]
  generalize s.glob = names
  induction names generalizing s with
  | nil => rfl
  | cons name names ih => rw [List.foldl_cons, ih, call_of_info_none h, outputs_makeOutputDir]

/-- Without JSON files outside `expert_statistics`, a second run repeats the first. -/
theorem idempotent_of_no_json {info : TokenInfo} (hinfo : env.info? = some info)
    {s : FirstLevelDir ν} (hs : s.OwnBlank env)
    (hjson : ∀ name, name ≠ env.expertStatistics → ¬ s.HasJson name) : Idempotent env s := by
  have halong : Along env s (s.runPostprocess env) := along_run s
  have hjson' : ∀ name, name ≠ env.expertStatistics → ¬ (s.runPostprocess env).HasJson name :=
    fun n hn => (halong.hasJson_iff hn).not.mpr (hjson n hn)
  rw [Idempotent, outputs_run_of_no_json hinfo hjson', halong.stream_own hs]
  by_cases hown : s.HasJson env.expertStatistics
  · rw [outputs_run_of_no_json hinfo hjson, if_pos hown, ite_self]
  · have hnone : ∀ name, ¬ s.HasJson name := fun n hn =>
      (eq_or_ne n env.expertStatistics).elim (fun h => hown (h ▸ hn)) fun h => hjson n h hn
    rw [if_neg (not_hasJson_run hnone _)]

/-- With JSON files outside `expert_statistics`, a second run repeats the first unless it is the first
to come to `expert_statistics`, after all of these files. -/
theorem idempotent_iff_of_isLast {info : TokenInfo} (hinfo : env.info? = some info)
    {s : FirstLevelDir ν} (hs : s.OwnBlank env) {last : ν} (hlast : IsLast env s last) :
    Idempotent env s ↔
      (env.expertStatistics ∉ s.subdirs.keys → last < env.expertStatistics →
        ¬ Contributes info env.tokenizer (getEosTokenIds env.tokenizer) (s.folder last)) := by
  have halong : Along env s (s.runPostprocess env) := along_run s
  have hmade : env.expertStatistics ∈ (s.runPostprocess env).subdirs.keys :=
    mem_keys_run hlast.hasJson.mem_keys
  rw [Idempotent, outputs_run_of_isLast hinfo (halong.ownBlank hs) (halong.isLast hlast),
    outputs_run_of_isLast hinfo hs hlast, halong.stream_own hs, halong.other last hlast.ne]
  simp only [hmade, true_and]
  by_cases hlt : last < env.expertStatistics
  · by_cases hkey : env.expertStatistics ∈ s.subdirs.keys
    · simp [hlt, hkey]
    · simp only [hlt, hkey, if_true, and_true, if_false, not_false_eq_true, forall_const]
      rw [folder_of_notMem hkey, ← streamFolder_contributed_iff, ← outputs_eq_empty_iff, eq_comm]
      rfl
  · simp [hlt]

/-- **When the step is idempotent.** For every first-level directory, a second run leaves the three
output files as the first run left them, if and only if it is not so that: the inference file can be
loaded, `expert_statistics` did not exist before the first run, all sub-directories with JSON files sort
before it, and the last one of these contributes something. -/
theorem runPostprocess_idempotent_iff (env : StepEnv ν) (s : FirstLevelDir ν) (hs : s.OwnBlank env) :
    Idempotent env s ↔
      ¬ ∃ info last, env.info? = some info ∧ env.expertStatistics ∉ s.subdirs.keys ∧
        s.HasJson last ∧ (∀ name, s.HasJson name → name ≤ last) ∧ last < env.expertStatistics ∧
        Contributes info env.tokenizer (getEosTokenIds env.tokenizer) (s.folder last) := by
  cases hinfo : env.info? with
  | none =>
    refine iff_of_true ?_ (by simp)
    rw [Idempotent, outputs_run_of_info_none hinfo]
  | some info =>
    -- `expert_statistics` itself never counts as the last: it must not be there before the first run
    by_cases hany : ∃ name, name ≠ env.expertStatistics ∧ s.HasJson name
    · obtain ⟨name, hname, hjson⟩ := hany
      obtain ⟨last, hlast⟩ := exists_isLast hname hjson
      rw [idempotent_iff_of_isLast hinfo hs hlast]
      constructor
      · rintro h ⟨info', last', hinfo', hkey, hjson', hmax, hlt, hc⟩
        cases hinfo'
        have hne : last' ≠ env.expertStatistics := hlt.ne
        have heq : last' = last := le_antisymm (hlast.le last' hne hjson') (hmax last hlast.hasJson)
        subst heq
        exact h hkey hlt hc
      · intro h hkey hlt hc
        refine h ⟨info, last, rfl, hkey, hlast.hasJson, fun n hn => ?_, hlt, hc⟩
        refine hlast.le n (fun hn' => hkey (hn' ▸ hn.mem_keys)) hn
    · have hjson : ∀ name, name ≠ env.expertStatistics → ¬ s.HasJson name := fun n hn hj =>
        hany ⟨n, hn, hj⟩
      refine iff_of_true (idempotent_of_no_json hinfo hs hjson) ?_
      rintro ⟨-, last, -, -, hj, -, hlt, -⟩
      exact hjson last hlt.ne hj

/-- One request of one token. -/
def sampleEnv : StepEnv String where
  expertStatistics := "expert_statistics"
  path name := name
  inferenceResults := .ok [{ requestId := 0, tokenIds := [11] }]
  tokenizer := none

/-- A directory with the dump of one pass in the given sub-directory. -/
def sampleDir (name : String) : FirstLevelDir String where
  subdirs := PyDict.empty.set name (PyDict.empty.set "dist_a_1.json" (.ok { records :=
    [{ topkIdsOfLayer := [[some [some 3]]], topkWeightsOfLayer := [[some [some 1]]] }] }))

theorem runPostprocess_idempotent_after :
    Idempotent sampleEnv (sampleDir "logs_of_experts") := by
  refine (runPostprocess_idempotent_iff sampleEnv _ ?_).mpr ?_
  · rintro f ⟨⟩
  · rintro ⟨-, last, -, -, hjson, -, hlt, -⟩
    have hmem := hjson.mem_keys
    have hlast : last = "logs_of_experts" := List.mem_singleton.mp hmem
    subst hlast
    exact absurd hlt (by decide)

/-- The directory `expert_logs` of the client sorts before `expert_statistics`: the second run ends with
the outputs of an empty folder. -/
theorem runPostprocess_not_idempotent : ¬ Idempotent sampleEnv (sampleDir "expert_logs") := by
  unfold Idempotent
  decide

end FirstLevelDir

end MoeSpecialization.Postprocess
