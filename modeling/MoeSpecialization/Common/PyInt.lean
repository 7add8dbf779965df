import Mathlib.Data.Int.Notation
import Mathlib.Data.Nat.Notation

/-!
# `int` and `str` on integers

`int(s)` reads an optional sign and decimal digits, with single underscores between digits, after
stripping white space. Only ASCII digits and white space are read here. `str(n)` is `toString n`.
-/

namespace Py

/-- The white space that `str.strip` removes, as far as it is ASCII. -/
def isSpace (c : Char) : Bool := c = ' ' || ('\t' ≤ c && c ≤ '\r') || ('\x1c' ≤ c && c ≤ '\x1f')

/-- `str.strip()`. -/
def strip (s : List Char) : List Char := ((s.dropWhile isSpace).reverse.dropWhile isSpace).reverse

/-- The digits of a literal after those that make up `acc`. -/
def intDigits : ℕ → List Char → Option ℕ
  | acc, [] => some acc
  | acc, '_' :: c :: cs => if c.isDigit then intDigits (10 * acc + (c.toNat - '0'.toNat)) cs else none
  | acc, c :: cs => if c.isDigit then intDigits (10 * acc + (c.toNat - '0'.toNat)) cs else none

/-- A literal without sign: it starts with a digit. -/
def natLit : List Char → Option ℕ
  | [] => none
  | c :: cs => if c.isDigit then intDigits 0 (c :: cs) else none

/-- `int(s)`; `none` is a `ValueError`. -/
def pyInt (s : String) : Option ℤ :=
  match strip s.toList with
  | '-' :: cs => (natLit cs).map fun n => -(n : ℤ)
  | '+' :: cs => (natLit cs).map Int.ofNat
  | cs => (natLit cs).map Int.ofNat

theorem intDigits_of_digits {cs : List Char} (h : ∀ c ∈ cs, c.isDigit = true) (acc : ℕ) :
    intDigits acc cs = some (Nat.ofDigitChars 10 cs acc) := by
  induction cs generalizing acc with
  | nil => simp [intDigits]
  | cons c cs ih =>
    have hc : c.isDigit = true := h c (by simp)
    have hne : c ≠ '_' := by rintro rfl; exact absurd hc (by decide)
    rw [intDigits.eq_3 _ _ _ (fun c' cs' hc' _ => hne hc'), if_pos hc, ih fun d hd => h d (by simp [hd]),
      Nat.ofDigitChars_cons]

theorem isSpace_of_isDigit {c : Char} (h : c.isDigit = true) : isSpace c = false := by
  simp only [Char.isDigit, Bool.and_eq_true, decide_eq_true_eq, ge_iff_le] at h
  have h0 : 48 ≤ c.val.toNat := UInt32.le_iff_toNat_le.mp h.1
  have hne : c ≠ ' ' := by rintro rfl; exact absurd h0 (by decide)
  have hlt : ∀ d : Char, d.val.toNat < 48 → ¬ c ≤ d := by
    intro d hd hle
    have hle' : c.val.toNat ≤ d.val.toNat := UInt32.le_iff_toNat_le.mp (Char.le_def.mp hle)
    omega
  simp [isSpace, hne, hlt '\r' (by decide), hlt '\x1f' (by decide)]

/-- Digits are not stripped. -/
theorem strip_of_digits {cs : List Char} (h : ∀ c ∈ cs, c.isDigit = true) : strip cs = cs := by
  have hdrop : ∀ ds : List Char, (∀ c ∈ ds, c.isDigit = true) → ds.dropWhile isSpace = ds := by
    intro ds hds
    cases ds with
    | nil => rfl
    | cons d ds => rw [List.dropWhile_cons_of_neg (by simp [isSpace_of_isDigit (hds d (by simp))])]
  rw [strip, hdrop cs h, hdrop cs.reverse (by simpa using h), List.reverse_reverse]

theorem natLit_toDigits (n : ℕ) : natLit (Nat.toDigits 10 n) = some n := by
  have hdigits : ∀ c ∈ Nat.toDigits 10 n, c.isDigit = true := fun c hc =>
    Nat.isDigit_of_mem_toDigits (by decide) (by decide) hc
  cases hcs : Nat.toDigits 10 n with
  | nil => exact absurd hcs Nat.toDigits_ne_nil
  | cons c cs =>
    rw [natLit, if_pos (hdigits c (by simp [hcs])), ← hcs, intDigits_of_digits hdigits,
      Nat.ofDigitChars_ten_toDigits]

/-- `int(str(n)) == n`. -/
theorem pyInt_toString (n : ℕ) : pyInt (toString n) = some (n : ℤ) := by
  have hdigits : ∀ c ∈ Nat.toDigits 10 n, c.isDigit = true := fun c hc =>
    Nat.isDigit_of_mem_toDigits (by decide) (by decide) hc
  rw [pyInt, Nat.toString_eq_repr, Nat.toList_repr, strip_of_digits hdigits]
  have hval := natLit_toDigits n
  -- a literal of `str` has no sign
  split
  · rename_i h
    exact absurd (hdigits '-' (by simp [h])) (by decide)
  · rename_i h
    exact absurd (hdigits '+' (by simp [h])) (by decide)
  · rw [hval]
    rfl

/-- `str` is injective. -/
theorem toString_inj {m n : ℕ} : toString m = toString n ↔ m = n := by
  refine ⟨fun h => ?_, fun h => h ▸ rfl⟩
  have hint := congrArg pyInt h
  rw [pyInt_toString, pyInt_toString, Option.some.injEq] at hint
  exact_mod_cast hint

end Py
