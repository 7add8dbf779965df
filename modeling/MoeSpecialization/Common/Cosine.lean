import Mathlib.Algebra.Order.BigOperators.Group.List
import Mathlib.Algebra.Order.Field.Basic
import Mathlib.Tactic.Linarith
import Mathlib.Tactic.Ring

/-!
# Cosine similarity of lists

Vectors are lists over an ordered field with a square root. `unit` divides a vector by its norm, and by
one where the norm is zero, so the similarity with a zero vector is zero. The bound needs no lengths:
`2 * x * y ≤ x ^ 2 + y ^ 2` in every place gives it once the squares sum up to one at most.
-/

namespace Cosine

variable {K : Type} [Field K]

/-- The inner product. -/
def dot (u v : List K) : K := (List.zipWith (· * ·) u v).sum

/-- The vector divided by its norm, a zero norm counting as one. -/
def unit [DecidableEq K] (sqrt : K → K) (u : List K) : List K :=
  let norm := sqrt (dot u u)
  u.map (· / if norm = 0 then 1 else norm)

/-- The inner product of the normed vectors. -/
def similarity [DecidableEq K] (sqrt : K → K) (u v : List K) : K := dot (unit sqrt u) (unit sqrt v)

/-- The average of a list. -/
def average (xs : List K) : K := xs.sum / xs.length

@[simp] theorem dot_nil_left (v : List K) : dot [] v = 0 := rfl

@[simp] theorem dot_nil_right (u : List K) : dot u [] = 0 := by cases u <;> rfl

@[simp] theorem dot_cons (x y : K) (u v : List K) : dot (x :: u) (y :: v) = x * y + dot u v := rfl

theorem dot_map_div (a b : K) (u v : List K) :
    dot (u.map (· / a)) (v.map (· / b)) = dot u v / (a * b) := by
  induction u generalizing v with
  | nil => simp
  | cons x u ih =>
    cases v with
    | nil => simp
    | cons y v =>
      simp only [List.map_cons, dot_cons, ih]
      ring

theorem dot_eq_zero {u : List K} (h : ∀ x ∈ u, x = 0) (v : List K) : dot u v = 0 := by
  induction u generalizing v with
  | nil => rfl
  | cons x u ih =>
    cases v with
    | nil => rfl
    | cons y v => rw [dot_cons, h x (by simp), ih (fun z hz => h z (by simp [hz])), zero_mul, zero_add]

/-- A zero vector is similar to none, itself included. -/
theorem similarity_eq_zero [DecidableEq K] (sqrt : K → K) {u : List K} (h : ∀ x ∈ u, x = 0)
    (v : List K) : similarity sqrt u v = 0 := by
  apply dot_eq_zero
  intro y hy
  obtain ⟨x, hx, rfl⟩ := List.mem_map.mp hy
  rw [h x hx, zero_div]

section Ordered

variable [LinearOrder K] [IsStrictOrderedRing K]

theorem dot_nonneg {u v : List K} (hu : ∀ x ∈ u, 0 ≤ x) (hv : ∀ x ∈ v, 0 ≤ x) : 0 ≤ dot u v := by
  induction u generalizing v with
  | nil => exact le_refl 0
  | cons x u ih =>
    cases v with
    | nil => exact le_refl 0
    | cons y v =>
      have hxy : 0 ≤ x * y := mul_nonneg (hu x (by simp)) (hv y (by simp))
      have hrest : 0 ≤ dot u v :=
        ih (fun z hz => hu z (by simp [hz])) (fun z hz => hv z (by simp [hz]))
      rw [dot_cons]
      linarith

theorem dot_self_nonneg (u : List K) : 0 ≤ dot u u := by
  induction u with
  | nil => exact le_refl 0
  | cons x u ih =>
    rw [dot_cons]
    linarith [mul_self_nonneg x]

theorem dot_self_pos {u : List K} {x : K} (hx : x ∈ u) (hne : x ≠ 0) : 0 < dot u u := by
  induction u with
  | nil => cases hx
  | cons y u ih =>
    rw [dot_cons]
    rcases List.mem_cons.mp hx with rfl | hx
    · linarith [dot_self_nonneg u, mul_self_pos.mpr hne]
    · linarith [ih hx, mul_self_nonneg y]

/-- The inner product is at most the average of the squared norms. -/
theorem two_mul_dot_le (u v : List K) : 2 * dot u v ≤ dot u u + dot v v := by
  induction u generalizing v with
  | nil =>
    rw [dot_nil_left, dot_nil_left, mul_zero, zero_add]
    exact dot_self_nonneg v
  | cons x u ih =>
    cases v with
    | nil =>
      rw [dot_nil_right, dot_nil_right, mul_zero, add_zero]
      exact dot_self_nonneg (x :: u)
    | cons y v =>
      simp only [dot_cons]
      linarith [ih v, mul_self_nonneg (x - y)]

/-- A square root on the non-negative elements. -/
structure IsSqrt (sqrt : K → K) : Prop where
  nonneg : ∀ x, 0 ≤ sqrt x
  mul_self : ∀ x, 0 ≤ x → sqrt x * sqrt x = x

section Sqrt

variable {sqrt : K → K} (hsqrt : IsSqrt sqrt)

include hsqrt

theorem dot_unit_self {u : List K} (h : dot u u ≠ 0) : dot (unit sqrt u) (unit sqrt u) = 1 := by
  have hmul := hsqrt.mul_self _ (dot_self_nonneg u)
  have hnorm : sqrt (dot u u) ≠ 0 := by
    intro hzero
    rw [hzero, zero_mul] at hmul
    exact h hmul.symm
  rw [unit, dot_map_div, if_neg hnorm, hmul, div_self h]

theorem dot_unit_self_le (u : List K) : dot (unit sqrt u) (unit sqrt u) ≤ 1 := by
  by_cases h : dot u u = 0
  · rw [unit, dot_map_div, h, zero_div]
    exact zero_le_one
  · exact (dot_unit_self hsqrt h).le

theorem unit_nonneg {u : List K} (hu : ∀ x ∈ u, 0 ≤ x) : ∀ x ∈ unit sqrt u, 0 ≤ x := by
  intro y hy
  obtain ⟨x, hx, rfl⟩ := List.mem_map.mp hy
  apply div_nonneg (hu x hx)
  split
  · exact zero_le_one
  · exact hsqrt.nonneg _

/-- The similarity of vectors without negative entries. -/
theorem similarity_mem {u v : List K} (hu : ∀ x ∈ u, 0 ≤ x) (hv : ∀ x ∈ v, 0 ≤ x) :
    0 ≤ similarity sqrt u v ∧ similarity sqrt u v ≤ 1 := by
  refine ⟨dot_nonneg (unit_nonneg hsqrt hu) (unit_nonneg hsqrt hv), ?_⟩
  have hdot := two_mul_dot_le (unit sqrt u) (unit sqrt v)
  have hu' := dot_unit_self_le hsqrt u
  have hv' := dot_unit_self_le hsqrt v
  rw [similarity]
  linarith

/-- A vector with an entry is similar to itself. -/
theorem similarity_self {u : List K} {x : K} (hx : x ∈ u) (hne : x ≠ 0) : similarity sqrt u u = 1 :=
  dot_unit_self hsqrt (dot_self_pos hx hne).ne'

end Sqrt

theorem average_mem {xs : List K} (h : ∀ x ∈ xs, 0 ≤ x ∧ x ≤ 1) : 0 ≤ average xs ∧ average xs ≤ 1 := by
  have hlength : (0 : K) ≤ xs.length := Nat.cast_nonneg _
  refine ⟨div_nonneg (List.sum_nonneg fun x hx => (h x hx).1) hlength, ?_⟩
  have hsum := List.sum_le_card_nsmul xs 1 fun x hx => (h x hx).2
  rw [nsmul_one] at hsum
  exact div_le_one_of_le₀ hsum hlength

theorem average_const {xs : List K} {c : K} (hne : xs ≠ []) (h : ∀ x ∈ xs, x = c) : average xs = c := by
  have hlength : (xs.length : K) ≠ 0 := Nat.cast_ne_zero.mpr (by simpa using hne)
  rw [average, List.sum_eq_card_nsmul xs c h, nsmul_eq_mul, mul_div_cancel_left₀ c hlength]

end Ordered

end Cosine
