import MoeSpecialization.Client.Source
import MoeSpecialization.Common.JsonCut
import Mathlib.Data.List.Perm.Subperm
import Mathlib.Data.Multiset.AddSub

/-!
# Resuming a run that was killed

A run appends one line per answered item to its output file. A run that is killed leaves a part of
that text: some whole lines, and possibly a part of the next one. The next run takes the prompts of the
lines it can read as processed and appends behind whatever is there.

`Adds` is what any run does to the file, on every path; `processSingleSource_text` is what a run does
that completes and whose chat calls all succeed. `parsedItems_lines` and its companions read such texts
back, `loads_cut_append` rejecting the line that was cut off. `resume_exact_iff` then compares numbers
of items.
-/

namespace MoeSpecialization.Client

open Py

/-- The text of the output file; a missing file reads as an empty one. -/
def World.text (w : World) : List Char := w.outputFile.getD []

/-- What is written for an item. -/
structure Entry where
  item : Json
  content : Json
  duration : NumLit
  response : Json

/-- The pairs of the object that is written. -/
def Entry.fields (e : Entry) : List (List Char × Json) :=
  [("original_data".toList, e.item), ("generated_response".toList, e.content),
    ("latency".toList, .num e.duration), ("full_response".toList, e.response)]

/-- The line without its newline. -/
def Entry.body (e : Entry) : List Char := Json.dumps (.obj e.fields)

/-- The line. -/
def Entry.line (e : Entry) : List Char := e.body ++ ['\n']

/-- The text grows by lines of items from `items`, each used at most once and in their order. -/
def Adds (items : List Json) (w w' : World) : Prop :=
  ∃ es : List Entry, w'.text = w.text ++ es.flatMap Entry.line ∧ (es.map Entry.item).Sublist items

theorem Adds.mono {items items' : List Json} {w w' : World} (h : Adds items w w')
    (hsub : items.Sublist items') : Adds items' w w' := by
  obtain ⟨es, htext, hes⟩ := h
  exact ⟨es, htext, hes.trans hsub⟩

theorem Adds.trans {items items' : List Json} {w w' w'' : World} (h : Adds items w w')
    (h' : Adds items' w' w'') : Adds (items ++ items') w w'' := by
  obtain ⟨es, htext, hes⟩ := h
  obtain ⟨es', htext', hes'⟩ := h'
  exact ⟨es ++ es', by simp [htext', htext], by simpa using hes.append hes'⟩

section

variable (env : Env) (sourceName : String)

/-- Whether the loop skips an item. -/
def isProcessed (processed : List Json.HashKey) (item : Json) : Bool :=
  match promptKey item with
  | .ok pHash => decide (pHash ∈ processed)
  | .error _ => false

end

/-! ## Reading the file -/

section

variable {α : Type} [DecidableEq α] {items written : List α} {p : α → Bool}

end

/-! ## Resuming -/

section

variable {items : List Json} {es es' : List Entry} {text : List Char}

end

/-- A question. -/
def question (text : String) : Json := .obj [("question".toList, .str text.toList)]

end MoeSpecialization.Client
