import Mathlib.Data.List.DropRight

/-!
# Stripping strings

`s.strip(chars)` removes characters of a kind from both ends. A character of another kind stops it from
both sides, so what stands before such a character is stripped on the left only and what stands behind
it on the right only (`stripBy_append_cons`).
-/

namespace Py

/-- The white space of `str.isspace()`: what `str.strip()` removes and `\s` matches. -/
def isWhitespace (c : Char) : Bool :=
  let n := c.toNat
  (0x09 ≤ n && n ≤ 0x0d) || (0x1c ≤ n && n ≤ 0x20) || n = 0x85 || n = 0xa0 || n = 0x1680 ||
    (0x2000 ≤ n && n ≤ 0x200a) || n = 0x2028 || n = 0x2029 || n = 0x202f || n = 0x205f || n = 0x3000

/-- `s.strip(chars)`, the characters given by a predicate. -/
def stripBy (p : Char → Bool) (s : List Char) : List Char := (s.dropWhile p).rdropWhile p

section Strip

variable {p : Char → Bool} {c : Char} {s : List Char}

theorem rdropWhile_append_cons (hc : p c = false) (u v : List Char) :
    (u ++ c :: v).rdropWhile p = u ++ c :: v.rdropWhile p := by
  induction v using List.reverseRecOn with
  | nil => exact List.rdropWhile_concat_neg p u c (by simp [hc])
  | append_singleton v x ih =>
    cases hx : p x with
    | true =>
      rw [← List.cons_append, ← List.append_assoc, List.rdropWhile_concat_pos _ _ _ hx, ih,
        List.rdropWhile_concat_pos _ _ _ hx]
    | false =>
      rw [← List.cons_append, ← List.append_assoc, List.rdropWhile_concat_neg _ _ _ (by simp [hx]),
        List.rdropWhile_concat_neg _ _ _ (by simp [hx]), List.append_assoc, List.cons_append]

theorem dropWhile_append_cons (hc : p c = false) (u v : List Char) :
    (u ++ c :: v).dropWhile p = u.dropWhile p ++ c :: v := by
  induction u with
  | nil => exact List.dropWhile_cons_of_neg (by simp [hc])
  | cons x u ih =>
    cases hx : p x with
    | true => rw [List.cons_append, List.dropWhile_cons_of_pos hx, List.dropWhile_cons_of_pos hx, ih]
    | false =>
      rw [List.cons_append, List.dropWhile_cons_of_neg (by simp [hx]),
        List.dropWhile_cons_of_neg (by simp [hx]), List.cons_append]

/-- A character that stays separates the two ends. -/
theorem stripBy_append_cons (hc : p c = false) (u v : List Char) :
    stripBy p (u ++ c :: v) = u.dropWhile p ++ c :: v.rdropWhile p := by
  rw [stripBy, dropWhile_append_cons hc, rdropWhile_append_cons hc]

theorem stripBy_eq_nil (h : ∀ c ∈ s, p c = true) : stripBy p s = [] := by
  rw [stripBy, List.dropWhile_eq_nil_iff.mpr h, List.rdropWhile_nil]

/-- A string without the stripped characters stays as it is. -/
theorem stripBy_eq_self (h : ∀ c ∈ s, p c = false) : stripBy p s = s := by
  cases s with
  | nil => rfl
  | cons c s =>
    have hkeep : s.rdropWhile p = s := by
      rw [List.rdropWhile_eq_self_iff]
      intro hne
      simp [h _ (List.mem_cons_of_mem c (List.getLast_mem hne))]
    have hstrip := stripBy_append_cons (h c (by simp)) [] s
    rwa [hkeep] at hstrip

theorem mem_of_mem_stripBy (h : c ∈ stripBy p s) : c ∈ s :=
  (List.dropWhile_suffix p).subset ((List.rdropWhile_prefix p _).subset h)

end Strip

end Py
