import Mathlib.Data.Finset.Card
import Mathlib.Data.List.Sort
import Mathlib.Order.Lattice

/-!
# Order statistics and top sets

The `k`-th largest value of a list is read off the list sorted in descending order. If a list splits
into values that are at least as large as the others, the sorted list splits at the same point, so the
two order statistics at the split are the minimum of the large part and the maximum of the small one.

A top set of a family of values is a set of indices whose values are at least as large as all others. It
is the only one of its size if and only if they are strictly larger.
-/

namespace TopK

section OrderStatistics

variable {α : Type} [LinearOrder α]

/-- The list in descending order. -/
def sortDesc (xs : List α) : List α := xs.insertionSort (· ≥ ·)

/-- The `k`-th largest value, counted from `1`. -/
def kthLargest (xs : List α) (k : ℕ) : Option α := (sortDesc xs)[k - 1]?

theorem sortDesc_pairwise (xs : List α) : (sortDesc xs).Pairwise (· ≥ ·) :=
  List.pairwise_insertionSort _ xs

theorem sortDesc_perm (xs : List α) : (sortDesc xs).Perm xs := List.perm_insertionSort _ xs

theorem length_sortDesc (xs : List α) : (sortDesc xs).length = xs.length := (sortDesc_perm xs).length_eq

/-- A descending list is determined by its values. -/
theorem sortDesc_eq_of_perm {xs ys : List α} (hperm : ys.Perm xs) (hys : ys.Pairwise (· ≥ ·)) :
    sortDesc xs = ys :=
  ((sortDesc_perm xs).trans hperm.symm).eq_of_pairwise' (sortDesc_pairwise xs) hys

theorem sortDesc_append {xs ys : List α} (h : ∀ x ∈ xs, ∀ y ∈ ys, y ≤ x) :
    sortDesc (xs ++ ys) = sortDesc xs ++ sortDesc ys := by
  refine sortDesc_eq_of_perm ((sortDesc_perm xs).append (sortDesc_perm ys)) ?_
  refine List.pairwise_append.mpr ⟨sortDesc_pairwise xs, sortDesc_pairwise ys, fun x hx y hy => ?_⟩
  exact h x ((sortDesc_perm xs).mem_iff.mp hx) y ((sortDesc_perm ys).mem_iff.mp hy)

theorem sortDesc_congr {xs ys : List α} (h : xs.Perm ys) : sortDesc xs = sortDesc ys :=
  sortDesc_eq_of_perm ((sortDesc_perm ys).trans h.symm) (sortDesc_pairwise ys)

/-- The last value of a descending list is the minimum. -/
theorem getElem?_sortDesc_last {xs : List α} (hne : xs ≠ []) :
    (sortDesc xs)[xs.length - 1]? = xs.min? := by
  have hlen := length_sortDesc xs
  have hpos := List.length_pos_iff.mpr hne
  have hlt : xs.length - 1 < (sortDesc xs).length := by omega
  rw [List.getElem?_eq_getElem hlt, eq_comm, List.min?_eq_some_iff]
  refine ⟨(sortDesc_perm xs).mem_iff.mp (List.getElem_mem hlt), fun x hx => ?_⟩
  obtain ⟨i, hi, rfl⟩ := List.mem_iff_getElem.mp ((sortDesc_perm xs).mem_iff.mpr hx)
  rcases Nat.lt_or_ge i (xs.length - 1) with hlt' | hge
  · exact List.pairwise_iff_getElem.mp (sortDesc_pairwise xs) i _ hi hlt hlt'
  · have heq : i = xs.length - 1 := by omega
    subst heq
    exact le_rfl

/-- The first value of a descending list is the maximum. -/
theorem getElem?_sortDesc_zero (xs : List α) : (sortDesc xs)[0]? = xs.max? := by
  rw [eq_comm]
  cases hxs : sortDesc xs with
  | nil =>
    have hnil : xs = [] := (hxs ▸ sortDesc_perm xs).symm.eq_nil
    simp [hnil]
  | cons x rest =>
    have hperm := sortDesc_perm xs
    have hsorted := sortDesc_pairwise xs
    rw [hxs] at hperm hsorted
    rw [List.getElem?_cons_zero, List.max?_eq_some_iff]
    refine ⟨hperm.mem_iff.mp (by simp), fun y hy => ?_⟩
    rcases List.mem_cons.mp (hperm.mem_iff.mpr hy) with rfl | hmem
    · exact le_rfl
    · exact (List.pairwise_cons.mp hsorted).1 y hmem

/-- The order statistics at a split. -/
theorem kthLargest_split {zs xs ys : List α} (hperm : zs.Perm (xs ++ ys))
    (h : ∀ x ∈ xs, ∀ y ∈ ys, y ≤ x) (hne : xs ≠ []) :
    kthLargest zs xs.length = xs.min? ∧ kthLargest zs (xs.length + 1) = ys.max? := by
  have hpos := List.length_pos_iff.mpr hne
  have hlen := length_sortDesc xs
  rw [kthLargest, kthLargest, sortDesc_congr hperm, sortDesc_append h]
  constructor
  · rw [List.getElem?_append_left (by omega), getElem?_sortDesc_last hne]
  · rw [Nat.add_sub_cancel, List.getElem?_append_right (by omega), hlen, Nat.sub_self,
      getElem?_sortDesc_zero]

end OrderStatistics

section TopSets

variable {ι α : Type} [DecidableEq ι] [LinearOrder α] {z : ι → α} {S : Finset ι}

/-- No index outside has a larger value than one inside. -/
def IsTopSet (z : ι → α) (S : Finset ι) : Prop := ∀ i ∈ S, ∀ j ∉ S, z j ≤ z i

/-- Exchanging two indices of equal values. -/
theorem IsTopSet.exchange (hS : IsTopSet z S) {i j : ι} (hj : j ∉ S) (hij : z i ≤ z j)
    (hi : i ∈ S) : IsTopSet z (insert j (S.erase i)) := by
  intro x hx y hy
  have hxj : z j ≤ z x := by
    rcases Finset.mem_insert.mp hx with rfl | hx
    · exact le_rfl
    · exact hS x (Finset.mem_of_mem_erase hx) j hj
  have hyi : z y ≤ z i := by
    by_cases hyi : y = i
    · rw [hyi]
    · refine hS i hi y fun hyS => hy ?_
      exact Finset.mem_insert_of_mem (Finset.mem_erase.mpr ⟨hyi, hyS⟩)
  exact hyi.trans (hij.trans hxj)

/-- A top set is the only one of its size if and only if its values are strictly larger. -/
theorem IsTopSet.existsUnique_iff (hS : IsTopSet z S) :
    (∃! T : Finset ι, T.card = S.card ∧ IsTopSet z T) ↔ ∀ i ∈ S, ∀ j ∉ S, z j < z i := by
  constructor
  · rintro ⟨T, -, huniq⟩ i hi j hj
    by_contra hle
    have hne : i ≠ j := fun h => hj (h ▸ hi)
    have hcard : (insert j (S.erase i)).card = S.card := by
      rw [Finset.card_insert_of_notMem (fun h => hj (Finset.mem_of_mem_erase h)),
        Finset.card_erase_of_mem hi]
      have := Finset.card_pos.mpr ⟨i, hi⟩
      omega
    have hexch := huniq _ ⟨hcard, hS.exchange hj (not_lt.mp hle) hi⟩
    have hself := huniq S ⟨rfl, hS⟩
    have hmem : i ∈ insert j (S.erase i) := by rw [hexch, ← hself]; exact hi
    rcases Finset.mem_insert.mp hmem with h | h
    · exact hne h
    · exact absurd rfl (Finset.ne_of_mem_erase h)
  · intro hlt
    refine ⟨S, ⟨rfl, hS⟩, fun T hT => ?_⟩
    obtain ⟨hcard, htop⟩ := hT
    refine Finset.eq_of_subset_of_card_le (fun j hjT => ?_) hcard.ge
    -- an index of `T` outside `S` would leave an index of `S` outside `T`
    by_contra hjS
    obtain ⟨i, hiS, hiT⟩ : ∃ i ∈ S, i ∉ T := by
      by_contra hall
      push Not at hall
      exact hjS (Finset.eq_of_subset_of_card_le hall hcard.le ▸ hjT)
    exact absurd (htop j hjT i hiT) (not_le.mpr (hlt i hiS j hjS))

end TopSets

end TopK
