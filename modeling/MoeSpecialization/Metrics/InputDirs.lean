import MoeSpecialization.Common.PyStr
import MoeSpecialization.Common.TextLines
import Mathlib.Data.List.Basic

/-!
# Parsing `INPUT_DIRS` out of a shell script

Reference: `parse_input_dirs_from_batch_call` in `metric/utils/aggregate_results.py`; the arrays it is
given look like the one in `metric/script/run_all_metrics.sh`.

The parser takes what stands between the head of the array and the first closing parenthesis, and
reads it line by line. The shell reads the same text with quotes and comments in mind: a parenthesis
inside a path or a comment does not close the array, and what follows a path after a blank and `#` is
not part of it. `Parsable` says on which bodies the two readings agree.
-/

namespace MoeSpecialization.Metrics.InputDirs

open Py

/-! ## The parser -/

/-- The text behind a literal that it starts with. -/
def dropLiteral : (lit cs : List Char) → Option (List Char)
  | [], cs => some cs
  | c :: lit, d :: cs => if c = d then dropLiteral lit cs else none
  | _ :: _, [] => none

/-- A match of `INPUT_DIRS\s*=\s*\(` at the start, as the text behind it. The white space cannot be
matched in two ways, as neither `=` nor the parenthesis is white space. -/
def matchHead (cs : List Char) : Option (List Char) := do
  let cs ← dropLiteral "INPUT_DIRS".toList cs
  let cs ← dropLiteral ['='] (cs.dropWhile isWhitespace)
  dropLiteral ['('] (cs.dropWhile isWhitespace)

/-- A match of the whole pattern at the start, as its group: up to the first closing parenthesis. -/
def matchArray (cs : List Char) : Option (List Char) := do
  let rest ← matchHead cs
  if ')' ∈ rest then some (rest.takeWhile (· ≠ ')')) else none

/-- `re.search`: the leftmost match. -/
def search : List Char → Option (List Char)
  | [] => matchArray []
  | c :: cs =>
    match matchArray (c :: cs) with
    | some group => some group
    | none => search cs

/-- The apostrophe. -/
def apostrophe : Char := '\x27'

/-- The body of the loop over the lines, `none` where nothing is appended. -/
def lineEntry (line : List Char) : Option (List Char) :=
  let line := stripBy isWhitespace line
  if line = [] ∨ line.head? = some '#' then none
  else
    let path := stripBy (· = apostrophe) (stripBy (· = '"') (stripBy isWhitespace line))
    let path := path.rdropWhile (· = ',')
    if path = [] then none else some path

/-- `parse_input_dirs_from_batch_call`. A file that is missing or cannot be read is `none`. -/
def parseInputDirsFromBatchCall (batchCallFile : Option (List Char)) : List (List Char) :=
  match batchCallFile with
  | none => []
  | some text =>
    match search (universalNewlines text) with
    | some arrayContent => (arrayContent.splitOn '\n').filterMap lineEntry
    | none => []

/-! ## The array as the shell reads it -/

/-- Spaces and tabs. -/
structure Blanks where
  chars : List Char
  blank : ∀ c ∈ chars, c = ' ' ∨ c = '\t'

/-- The text of a comment behind its `#`. -/
structure CommentText where
  chars : List Char
  oneLine : OneLine chars

/-- The two kinds of quotes. -/
inductive Quote where
  | single
  | double
deriving DecidableEq

def Quote.char : Quote → Char
  | .single => apostrophe
  | .double => '"'

/-- A path that stands for itself between quotes. -/
structure LiteralPath where
  chars : List Char
  oneLine : OneLine chars
  noQuotes : ∀ quote : Quote, quote.char ∉ chars
  noDollar : '$' ∉ chars
  noTrailingComma : chars.getLast? ≠ some ','

/-- A line with a quoted path; a comment behind it begins after a blank. -/
structure PathLine where
  lead : Blanks
  quote : Quote
  path : LiteralPath
  trail : Blanks
  comment : Option CommentText
  apart : comment ≠ none → trail.chars ≠ []

/-- A line of the body. -/
inductive Line where
  | blank (ws : Blanks)
  | comment (lead : Blanks) (text : CommentText)
  | path (line : PathLine)

/-- A comment as it is written. -/
def CommentText.render (text : CommentText) : List Char := '#' :: text.chars

/-- The line up to its comment. -/
def PathLine.front (l : PathLine) : List Char :=
  l.lead.chars ++ l.quote.char :: (l.path.chars ++ l.quote.char :: l.trail.chars)

def PathLine.render (l : PathLine) : List Char := l.front ++ l.comment.elim [] CommentText.render

/-- A line as it is written. -/
def Line.render : Line → List Char
  | .blank ws => ws.chars
  | .comment lead text => lead.chars ++ text.render
  | .path l => l.render

/-- The path on a line. -/
def Line.path? : Line → Option (List Char)
  | .path l => some l.path.chars
  | _ => none

/-- A comment reaches to the end of its line. -/
def Line.endsInComment : Line → Bool
  | .blank _ => false
  | .comment _ _ => true
  | .path l => l.comment.isSome

/-- The lines between the parentheses. -/
def body (lines : List Line) : List Char := ['\n'].intercalate (lines.map Line.render)

/-- The head of the array; the shell allows no blank in it. -/
def arrayHead : List Char := "INPUT_DIRS=(".toList

/-- The array as it is written. -/
def arrayText (lines : List Line) : List Char := arrayHead ++ (body lines ++ [')'])

/-- A shell text with one array: its closing parenthesis is not in a comment, and no other head stands
before it. -/
structure BatchCall where
  before : List Char
  lines : List Line
  after : List Char
  closed : ∀ line ∈ lines.getLast?, line.endsInComment = false
  single : ∀ i < (universalNewlines before).length,
    matchHead ((universalNewlines (before ++ (arrayText lines ++ after))).drop i) = none

def BatchCall.text (b : BatchCall) : List Char := b.before ++ (arrayText b.lines ++ b.after)

/-- The elements of the array. -/
def BatchCall.paths (b : BatchCall) : List (List Char) := b.lines.filterMap Line.path?

/-- A path on the line is non-empty, holds no closing parenthesis and has no comment behind it. -/
def Line.Plain : Line → Prop
  | .path l => l.path.chars ≠ [] ∧ ')' ∉ l.path.chars ∧ l.comment = none
  | _ => True

/-- All lines are plain, and no line before a path holds a closing parenthesis. -/
structure Parsable (lines : List Line) : Prop where
  plain : ∀ line ∈ lines, line.Plain
  ahead : lines.Pairwise fun line later => later.path?.isSome → ')' ∉ line.render

/-! ## The lines that the parser sees -/

/-- The lines up to the first closing parenthesis. -/
def cut : List (List Char) → List (List Char)
  | [] => []
  | line :: lines => if ')' ∈ line then [line.takeWhile (· ≠ ')')] else line :: cut lines

theorem takeWhile_append_cons {p : Char → Bool} {c : Char} (hc : p c = false) (u v : List Char) :
    (u ++ c :: v).takeWhile p = u.takeWhile p := by
  induction u with
  | nil => exact List.takeWhile_cons_of_neg (by simp [hc])
  | cons x u ih => rw [List.cons_append, List.takeWhile_cons, List.takeWhile_cons, ih]

theorem takeWhile_of_notMem {line : List Char} (h : ')' ∉ line) :
    line.takeWhile (· ≠ ')') = line := by
  rw [List.takeWhile_eq_self_iff]
  intro c hc
  simpa using fun heq : c = ')' => h (heq ▸ hc)

theorem takeWhile_append_of_mem {line : List Char} (h : ')' ∈ line) (rest : List Char) :
    (line ++ rest).takeWhile (· ≠ ')') = line.takeWhile (· ≠ ')') := by
  obtain ⟨u, v, rfl⟩ := List.append_of_mem h
  rw [List.append_assoc, List.cons_append, takeWhile_append_cons (by simp),
    takeWhile_append_cons (by simp)]

theorem cut_ne_nil {lines : List (List Char)} (h : lines ≠ []) : cut lines ≠ [] := by
  cases lines with
  | nil => exact absurd rfl h
  | cons line lines =>
    rw [cut]
    split <;> simp

/-- Cutting the text at the parenthesis cuts the lines there. -/
theorem takeWhile_intercalate (lines : List (List Char)) :
    (['\n'].intercalate lines).takeWhile (· ≠ ')') = ['\n'].intercalate (cut lines) := by
  induction lines with
  | nil => rfl
  | cons line lines ih =>
    by_cases hline : ')' ∈ line
    · rw [cut, if_pos hline, List.intercalate_singleton]
      cases lines with
      | nil => rw [List.intercalate_singleton]
      | cons line' lines =>
        rw [List.intercalate_cons_cons, List.append_assoc, takeWhile_append_of_mem hline]
    · rw [cut, if_neg hline]
      cases lines with
      | nil => rw [cut, List.intercalate_singleton, takeWhile_of_notMem hline]
      | cons line' lines =>
        rw [List.intercalate_cons_cons, List.intercalate_cons_of_ne_nil (cut_ne_nil (by simp)), ← ih,
          List.takeWhile_append_of_pos]
        intro c hc
        rcases List.mem_append.mp hc with hc | hc
        · simpa using fun heq : c = ')' => hline (heq ▸ hc)
        · rw [List.mem_singleton.mp hc]
          rfl

theorem mem_of_mem_cut {c : Char} {lines : List (List Char)} {line : List Char} (h : line ∈ cut lines)
    (hc : c ∈ line) : ∃ line' ∈ lines, c ∈ line' := by
  induction lines with
  | nil => cases h
  | cons line' lines ih =>
    rw [cut] at h
    split at h
    · rw [List.mem_singleton.mp h] at hc
      exact ⟨line', by simp, (List.takeWhile_sublist _).subset hc⟩
    · rcases List.mem_cons.mp h with rfl | h
      · exact ⟨line, by simp, hc⟩
      · obtain ⟨line'', hline, hc⟩ := ih h
        exact ⟨line'', by simp [hline], hc⟩

theorem Blanks.oneLine (ws : Blanks) : OneLine ws.chars := by
  intro c hc
  rcases ws.blank c hc with rfl | rfl <;> decide

theorem Quote.oneLine (quote : Quote) : quote.char ≠ '\n' ∧ quote.char ≠ '\r' := by
  cases quote <;> decide

theorem CommentText.oneLine_render (text : CommentText) : OneLine text.render :=
  OneLine.cons (by decide) text.oneLine

theorem oneLine_render (line : Line) : OneLine line.render := by
  cases line with
  | blank ws => exact ws.oneLine
  | comment lead text => exact OneLine.append lead.oneLine text.oneLine_render
  | path l =>
    have hcomment : OneLine (l.comment.elim [] CommentText.render) := by
      cases l.comment with
      | none => simp [OneLine]
      | some text => exact text.oneLine_render
    have hfront : OneLine l.front := OneLine.append l.lead.oneLine (OneLine.cons l.quote.oneLine
      (OneLine.append l.path.oneLine (OneLine.cons l.quote.oneLine l.trail.oneLine)))
    exact OneLine.append hfront hcomment

/-- The lines of what the parser takes out of the text. -/
theorem splitOn_takeWhile_body (lines : List Line) :
    (((body lines).takeWhile (· ≠ ')')).splitOn '\n').filterMap lineEntry =
      (cut (lines.map Line.render)).filterMap lineEntry := by
  cases lines with
  | nil => rfl
  | cons line lines =>
    rw [body, takeWhile_intercalate, List.splitOn_intercalate _ ?_ (cut_ne_nil (by simp))]
    intro l hl hmem
    obtain ⟨l', hl', hmem⟩ := mem_of_mem_cut hl hmem
    obtain ⟨line', -, rfl⟩ := List.mem_map.mp hl'
    exact (oneLine_render line' _ hmem).1 rfl

/-! ## One line -/

theorem Blanks.whitespace (ws : Blanks) : ∀ c ∈ ws.chars, isWhitespace c = true := by
  intro c hc
  rcases ws.blank c hc with rfl | rfl <;> decide

theorem Quote.not_whitespace (quote : Quote) : isWhitespace quote.char = false := by
  cases quote <;> decide

theorem lineEntry_blank (ws : Blanks) : lineEntry ws.chars = none := by
  rw [lineEntry, stripBy_eq_nil ws.whitespace]
  rfl

theorem lineEntry_comment (lead : Blanks) (text : List Char) :
    lineEntry (lead.chars ++ '#' :: text) = none := by
  have hlead : lead.chars.dropWhile isWhitespace = [] := List.dropWhile_eq_nil_iff.mpr lead.whitespace
  rw [lineEntry, stripBy_append_cons (by decide), hlead]
  exact if_pos (.inr rfl)

/-- What is appended consists of characters of the line. -/
theorem mem_of_mem_lineEntry {line path : List Char} (h : lineEntry line = some path) :
    ∀ c ∈ path, c ∈ line := by
  intro c hc
  dsimp only [lineEntry] at h
  split at h
  · cases h
  split at h
  · cases h
  rw [Option.some.injEq] at h
  rw [← h] at hc
  have hc := (List.rdropWhile_prefix _ _).subset hc
  exact mem_of_mem_stripBy (mem_of_mem_stripBy (mem_of_mem_stripBy (mem_of_mem_stripBy hc)))

/-- Stripping a quote off both ends of a text that has none. -/
theorem stripBy_quoted {p : Char → Bool} {q : Char} (hq : p q = true) {s : List Char}
    (hs : ∀ c ∈ s, p c = false) : stripBy p (q :: (s ++ [q])) = s := by
  cases s with
  | nil =>
    apply stripBy_eq_nil
    simpa using hq
  | cons c s =>
    have hstrip := stripBy_append_cons (hs c (by simp)) [q] (s ++ [q])
    have hself := stripBy_eq_self hs
    have hsplit := stripBy_append_cons (hs c (by simp)) [] s
    rw [List.rdropWhile_concat_pos _ _ _ hq, List.dropWhile_cons_of_pos hq, List.dropWhile_nil] at hstrip
    exact hstrip.trans (hsplit.symm.trans hself)

/-- Nothing goes where both ends are of another kind. -/
theorem stripBy_enclosed {p : Char → Bool} {q : Char} (hq : p q = false) (s : List Char) :
    stripBy p (q :: (s ++ [q])) = q :: (s ++ [q]) := by
  have hstrip := stripBy_append_cons hq [] (s ++ [q])
  rwa [rdropWhile_append_cons hq, List.rdropWhile_nil] at hstrip

theorem LiteralPath.ne_quote (path : LiteralPath) (quote : Quote) {c : Char} (hc : c ∈ path.chars) :
    c ≠ quote.char := fun heq => path.noQuotes quote (heq ▸ hc)

theorem strip_quotes (quote : Quote) (path : LiteralPath) :
    stripBy (· = apostrophe) (stripBy (· = '"') (quote.char :: (path.chars ++ [quote.char]))) =
      path.chars := by
  have hsingle : ∀ c ∈ path.chars, decide (c = apostrophe) = false :=
    fun c hc => decide_eq_false (path.ne_quote .single hc)
  have hdouble : ∀ c ∈ path.chars, decide (c = '"') = false :=
    fun c hc => decide_eq_false (path.ne_quote .double hc)
  cases quote with
  | single =>
    show stripBy _ (stripBy _ (apostrophe :: (path.chars ++ [apostrophe]))) = _
    rw [stripBy_enclosed (by decide), stripBy_quoted (by decide) hsingle]
  | double =>
    show stripBy _ (stripBy _ ('"' :: (path.chars ++ ['"']))) = _
    rw [stripBy_quoted (by decide) hdouble, stripBy_eq_self hsingle]

/-- A line with nothing behind its path. -/
theorem lineEntry_path (l : PathLine) :
    lineEntry l.front = if l.path.chars = [] then none else some l.path.chars := by
  have hlead : l.lead.chars.dropWhile isWhitespace = [] :=
    List.dropWhile_eq_nil_iff.mpr l.lead.whitespace
  have htrail : l.trail.chars.rdropWhile isWhitespace = [] :=
    List.rdropWhile_eq_nil_iff.mpr l.trail.whitespace
  have hstrip : stripBy isWhitespace l.front =
      l.quote.char :: (l.path.chars ++ [l.quote.char]) := by
    rw [PathLine.front, stripBy_append_cons l.quote.not_whitespace, hlead,
      rdropWhile_append_cons l.quote.not_whitespace, htrail]
    rfl
  have hkeep : ¬(l.quote.char :: (l.path.chars ++ [l.quote.char]) = [] ∨
      (l.quote.char :: (l.path.chars ++ [l.quote.char])).head? = some '#') := by
    cases l.quote <;> simp [Quote.char, apostrophe]
  have hcomma : l.path.chars.rdropWhile (· = ',') = l.path.chars := by
    rw [List.rdropWhile_eq_self_iff]
    intro hne hlast
    apply l.path.noTrailingComma
    rw [List.getLast?_eq_some_getLast hne]
    simpa using hlast
  rw [lineEntry, hstrip, if_neg hkeep, stripBy_enclosed l.quote.not_whitespace, strip_quotes]
  dsimp only
  rw [hcomma]

/-- The quotes in front of a path are all that is stripped from its left. -/
theorem length_le_dropWhile_quotes (l : PathLine) (rest : List Char) :
    l.path.chars.length ≤ (((l.quote.char :: (l.path.chars ++ rest)).dropWhile (· = '"')).dropWhile
      (· = apostrophe)).length := by
  cases hpath : l.path.chars with
  | nil => exact Nat.zero_le _
  | cons c cs =>
    have hne : ∀ quote : Quote, c ≠ quote.char := fun quote => l.path.ne_quote quote (by simp [hpath])
    have hsingle : ∀ s, (c :: s).dropWhile (· = apostrophe) = c :: s :=
      fun s => List.dropWhile_cons_of_neg (by rw [decide_eq_true_eq]; exact hne .single)
    have hdouble : ∀ s, (c :: s).dropWhile (· = '"') = c :: s :=
      fun s => List.dropWhile_cons_of_neg (by rw [decide_eq_true_eq]; exact hne .double)
    cases l.quote with
    | single =>
      rw [List.dropWhile_cons_of_neg (by decide), List.dropWhile_cons_of_pos (by decide), List.cons_append,
        hsingle]
      simp
    | double =>
      rw [List.dropWhile_cons_of_pos (by decide), List.cons_append, hdouble, hsingle]
      simp

/-- A comment behind a path goes into the entry. -/
theorem lineEntry_commented (l : PathLine) (text : List Char) :
    ∃ path, lineEntry (l.front ++ '#' :: text) = some path ∧ l.path.chars.length < path.length := by
  have hlead : l.lead.chars.dropWhile isWhitespace = [] :=
    List.dropWhile_eq_nil_iff.mpr l.lead.whitespace
  have hfront : l.front.dropWhile isWhitespace =
      l.quote.char :: (l.path.chars ++ l.quote.char :: l.trail.chars) := by
    rw [PathLine.front, dropWhile_append_cons l.quote.not_whitespace, hlead, List.nil_append]
  have hagain : (l.quote.char :: (l.path.chars ++ l.quote.char :: l.trail.chars)).dropWhile isWhitespace =
      l.quote.char :: (l.path.chars ++ l.quote.char :: l.trail.chars) :=
    List.dropWhile_cons_of_neg (by simp [l.quote.not_whitespace])
  have hkeep : ∀ rest : List Char, ¬(l.quote.char :: rest = [] ∨
      (l.quote.char :: rest).head? = some '#') := by
    cases l.quote <;> simp [Quote.char, apostrophe]
  have hlength := length_le_dropWhile_quotes l (l.quote.char :: l.trail.chars)
  rw [lineEntry, stripBy_append_cons (by decide), hfront, List.cons_append, if_neg (hkeep _),
    ← List.cons_append, stripBy_append_cons (by decide), hagain, stripBy_append_cons (by decide),
    stripBy_append_cons (by decide)]
  dsimp only
  rw [rdropWhile_append_cons (by decide)]
  refine ⟨_, if_neg (by simp), ?_⟩
  rw [List.length_append, List.length_cons]
  omega

/-! ## All lines -/

theorem Blanks.paren_notMem (ws : Blanks) : ')' ∉ ws.chars := by
  intro hmem
  rcases ws.blank _ hmem with heq | heq <;> exact absurd heq (by decide)

theorem paren_notMem_front {l : PathLine} (h : ')' ∉ l.path.chars) : ')' ∉ l.front := by
  have hquote : ')' ≠ l.quote.char := by cases l.quote <;> decide
  simp [PathLine.front, Blanks.paren_notMem, hquote, h]

theorem takeWhile_append_of_notMem {u : List Char} (h : ')' ∉ u) (v : List Char) :
    (u ++ v).takeWhile (· ≠ ')') = u ++ v.takeWhile (· ≠ ')') := by
  apply List.takeWhile_append_of_pos
  intro c hc
  simpa using fun heq : c = ')' => h (heq ▸ hc)

theorem paren_notMem_takeWhile (line : List Char) : ')' ∉ line.takeWhile (· ≠ ')') := by
  intro hmem
  simpa using List.mem_takeWhile_imp hmem

/-- A line up to its first closing parenthesis gives its path exactly when the line is plain. -/
theorem lineEntry_render_iff (line : Line) :
    lineEntry (line.render.takeWhile (· ≠ ')')) = line.path? ↔ line.Plain := by
  cases line with
  | blank ws =>
    show lineEntry (ws.chars.takeWhile _) = none ↔ True
    rw [takeWhile_of_notMem ws.paren_notMem, lineEntry_blank]
    simp
  | comment lead text =>
    show lineEntry ((lead.chars ++ '#' :: text.chars).takeWhile _) = none ↔ True
    rw [takeWhile_append_of_notMem lead.paren_notMem, List.takeWhile_cons_of_pos (by decide),
      lineEntry_comment]
    simp
  | path l =>
    show lineEntry ((l.front ++ _).takeWhile _) = some l.path.chars ↔ _ ∧ _ ∧ _
    by_cases hparen : ')' ∈ l.path.chars
    -- the entry has no parenthesis, the path has one
    · constructor
      · intro hentry
        exact absurd (mem_of_mem_lineEntry hentry _ hparen) (paren_notMem_takeWhile _)
      · intro hplain
        exact absurd hparen hplain.2.1
    · rw [takeWhile_append_of_notMem (paren_notMem_front hparen)]
      cases l.comment with
      | none =>
        rw [Option.elim_none, List.takeWhile_nil, List.append_nil, lineEntry_path]
        by_cases hnil : l.path.chars = [] <;> simp [hnil, hparen]
      | some text =>
        rw [Option.elim_some, CommentText.render, List.takeWhile_cons_of_pos (by decide)]
        obtain ⟨path, hentry, hlength⟩ := lineEntry_commented l (text.chars.takeWhile (· ≠ ')'))
        constructor
        · intro heq
          rw [hentry, Option.some.injEq] at heq
          rw [heq] at hlength
          exact absurd hlength (Nat.lt_irrefl _)
        · intro hplain
          exact absurd hplain.2.2 (by simp)

/-- A line without a path gives no entry. -/
theorem length_lineEntry_le (line : Line) :
    (lineEntry (line.render.takeWhile (· ≠ ')'))).toList.length ≤ line.path?.toList.length := by
  cases line with
  | path l => exact Option.length_toList_le
  | blank ws => rw [(lineEntry_render_iff (.blank ws)).mpr trivial]
  | comment lead text => rw [(lineEntry_render_iff (.comment lead text)).mpr trivial]

theorem filterMap_cons_eq {α β : Type} (f : α → Option β) (a : α) (l : List α) :
    (a :: l).filterMap f = (f a).toList ++ l.filterMap f := by
  cases h : f a <;> simp [h]

/-- What the parser makes of the lines: the first entry, and those of the rest unless the line closes
the match. -/
theorem entries_cons (line : Line) (lines : List Line) :
    (cut ((line :: lines).map Line.render)).filterMap lineEntry =
      (lineEntry (line.render.takeWhile (· ≠ ')'))).toList ++
        if ')' ∈ line.render then [] else (cut (lines.map Line.render)).filterMap lineEntry := by
  rw [List.map_cons, cut]
  split
  · rw [filterMap_cons_eq, List.filterMap_nil]
  · rename_i hparen
    rw [filterMap_cons_eq, takeWhile_of_notMem hparen]

theorem length_entries_le (lines : List Line) :
    ((cut (lines.map Line.render)).filterMap lineEntry).length ≤
      (lines.filterMap Line.path?).length := by
  induction lines with
  | nil => exact Nat.le_refl _
  | cons line lines ih =>
    rw [entries_cons, filterMap_cons_eq Line.path?, List.length_append, List.length_append]
    have hline := length_lineEntry_le line
    split
    · rw [List.length_nil]
      omega
    · omega

/-- Two pairs of lists, the first ones no longer than the second ones. -/
theorem append_eq_append_iff_of_le {α : Type} {a b c d : List α} (hac : a.length ≤ c.length)
    (hbd : b.length ≤ d.length) : a ++ b = c ++ d ↔ a = c ∧ b = d := by
  constructor
  · intro heq
    have hlength := congrArg List.length heq
    rw [List.length_append, List.length_append] at hlength
    exact List.append_inj heq (by omega)
  · rintro ⟨rfl, rfl⟩
    rfl

theorem parsable_cons (line : Line) (lines : List Line) :
    Parsable (line :: lines) ↔
      line.Plain ∧ (∀ later ∈ lines, later.path?.isSome → ')' ∉ line.render) ∧ Parsable lines := by
  constructor
  · rintro ⟨hplain, hahead⟩
    rw [List.forall_mem_cons] at hplain
    rw [List.pairwise_cons] at hahead
    exact ⟨hplain.1, hahead.1, hplain.2, hahead.2⟩
  · rintro ⟨hline, hfirst, hplain, hahead⟩
    exact ⟨List.forall_mem_cons.mpr ⟨hline, hplain⟩, List.pairwise_cons.mpr ⟨hfirst, hahead⟩⟩

theorem parsable_of_no_paths {lines : List Line} (h : ∀ line ∈ lines, line.path? = none) :
    Parsable lines := by
  refine ⟨fun line hline => ?_, List.pairwise_iff_forall_sublist.mpr fun hsub hsome => ?_⟩
  · cases line with
    | blank ws => trivial
    | comment lead text => trivial
    | path l => cases h _ hline
  · rw [h _ (hsub.subset (by simp))] at hsome
    cases hsome

theorem toList_eq_iff {α : Type} {a b : Option α} : a.toList = b.toList ↔ a = b := by
  cases a <;> cases b <;> simp

/-- The entries are the paths exactly on the bodies that can be parsed. -/
theorem entries_eq_iff (lines : List Line) :
    (cut (lines.map Line.render)).filterMap lineEntry = lines.filterMap Line.path? ↔
      Parsable lines := by
  induction lines with
  | nil => exact ⟨fun _ => ⟨by simp, .nil⟩, fun _ => rfl⟩
  | cons line lines ih =>
    rw [entries_cons, filterMap_cons_eq Line.path?, parsable_cons]
    -- each line gives at most as many entries as paths, so the lists agree line by line
    by_cases hparen : ')' ∈ line.render
    · have hnone : [] = lines.filterMap Line.path? ↔
          (∀ later ∈ lines, later.path?.isSome → ')' ∉ line.render) ∧ Parsable lines := by
        rw [eq_comm, List.filterMap_eq_nil_iff]
        constructor
        · intro h
          refine ⟨fun later hlater hsome => ?_, parsable_of_no_paths h⟩
          rw [h later hlater] at hsome
          cases hsome
        · rintro ⟨h, -⟩ later hlater
          by_contra hsome
          exact h later hlater (Option.isSome_iff_ne_none.mpr hsome) hparen
      rw [if_pos hparen, append_eq_append_iff_of_le (length_lineEntry_le line) (Nat.zero_le _),
        toList_eq_iff, lineEntry_render_iff, hnone]
    · rw [if_neg hparen, append_eq_append_iff_of_le (length_lineEntry_le line) (length_entries_le lines),
        toList_eq_iff, lineEntry_render_iff, ih]
      simp [hparen]

/-! ## The whole text -/

/-- The search passes over a text in which no head begins. -/
theorem search_append {u v : List Char} (h : ∀ i < u.length, matchHead ((u ++ v).drop i) = none) :
    search (u ++ v) = search v := by
  induction u with
  | nil => rfl
  | cons c u ih =>
    have hhead : matchArray (c :: (u ++ v)) = none := by
      have hfirst := h 0 (by simp)
      rw [matchArray, ← List.cons_append, ← List.drop_zero (l := c :: u ++ v), hfirst]
      rfl
    rw [List.cons_append, search, hhead]
    apply ih
    intro i hi
    exact h (i + 1) (by simpa using hi)

theorem arrayHead_eq : arrayHead = 'I' :: arrayHead.tail := by decide

theorem matchHead_array (rest : List Char) : matchHead (arrayHead ++ rest) = some rest := rfl

theorem search_array (text after : List Char) :
    search (arrayHead ++ (text ++ ')' :: after)) = some (text.takeWhile (· ≠ ')')) := by
  have hmatch : matchArray (arrayHead ++ (text ++ ')' :: after)) = some (text.takeWhile (· ≠ ')')) := by
    rw [matchArray, matchHead_array, Option.bind_eq_bind, Option.bind_some, if_pos (by simp),
      takeWhile_append_cons (by decide)]
  rw [arrayHead_eq, List.cons_append] at hmatch ⊢
  rw [search, hmatch]

theorem return_notMem_body (lines : List Line) : '\r' ∉ body lines := by
  rw [body]
  induction lines with
  | nil => simp
  | cons line lines ih =>
    have hline := (oneLine_render line).notMem
    cases lines with
    | nil => simpa using hline
    | cons line' lines =>
      rw [List.map_cons, List.map_cons, List.intercalate_cons_cons, ← List.map_cons]
      simp only [List.mem_append, not_or]
      exact ⟨⟨hline, by decide⟩, ih⟩

/-- The text as it is read. -/
theorem universalNewlines_text (b : BatchCall) :
    universalNewlines b.text = universalNewlines b.before ++
      (arrayHead ++ (body b.lines ++ ')' :: universalNewlines b.after)) := by
  have harray : '\r' ∉ arrayText b.lines := by
    simp only [arrayText, List.mem_append, not_or]
    exact ⟨by decide, return_notMem_body b.lines, by decide⟩
  have hcut : universalNewlines (b.before ++ (arrayText b.lines ++ b.after)) =
      universalNewlines b.before ++ universalNewlines (arrayText b.lines ++ b.after) := by
    rw [arrayText, arrayHead_eq, List.cons_append, List.cons_append]
    exact universalNewlines_append_cons (by decide) _ _
  rw [BatchCall.text, hcut, universalNewlines_append harray, arrayText]
  simp only [List.append_assoc, List.singleton_append]

/-- The parser returns the quoted paths exactly when every path is non-empty, holds no closing
parenthesis and has no comment behind it, and no line before a path holds a closing parenthesis. -/
theorem input_dirs_parsed_iff (b : BatchCall) :
    parseInputDirsFromBatchCall (some b.text) = b.paths ↔ Parsable b.lines := by
  have hsearch : search (universalNewlines b.text) = some ((body b.lines).takeWhile (· ≠ ')')) := by
    have hsingle := b.single
    rw [← BatchCall.text, universalNewlines_text] at hsingle
    rw [universalNewlines_text, search_append hsingle, search_array]
  rw [parseInputDirsFromBatchCall, hsearch]
  dsimp only
  rw [splitOn_takeWhile_body, BatchCall.paths, entries_eq_iff]

example : parseInputDirsFromBatchCall (some "N=(2 5)\nINPUT_DIRS=(\n  # old\n  \"runs/#1\"\n)".toList) =
    ["runs/#1".toList] := by
  decide +kernel

/-- A path with a parenthesis in it. -/
def parenPath : LiteralPath where
  chars := "runs/a)b".toList
  oneLine := by simp [OneLine]
  noQuotes := fun quote => by cases quote <;> decide
  noDollar := by decide
  noTrailingComma := by decide

/-- An array that has this path as its only element. -/
def parenCall : BatchCall where
  before := []
  lines := [.blank ⟨[], by simp⟩, .path ⟨⟨"    ".toList, by simp⟩, .double, parenPath, ⟨[], by simp⟩, none,
    fun h => absurd rfl h⟩, .blank ⟨[], by simp⟩]
  after := []
  closed := by simp [Line.endsInComment]
  single := by simp [universalNewlines]

/-- The path is cut at its parenthesis. -/
theorem paren_in_path_cuts_array :
    parseInputDirsFromBatchCall (some parenCall.text) = ["runs/a".toList] ∧
      parenCall.paths = ["runs/a)b".toList] ∧
      parseInputDirsFromBatchCall (some parenCall.text) ≠ parenCall.paths := by
  decide +kernel

end MoeSpecialization.Metrics.InputDirs
