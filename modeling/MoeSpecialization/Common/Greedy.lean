import Mathlib.Algebra.Order.BigOperators.Group.Finset
import Mathlib.Data.List.Infix

/-!
# Greedy prefixes

A list of items in descending order of their values is read from the front until the sum of the values
reaches a threshold. The prefix read so far is optimal among all sets of its size, by exchanging an item
of the set with the first item of the list (`sum_le_sum_take`); hence no smaller set reaches the
threshold.
-/

namespace Greedy

variable {ι M : Type*} [AddCommMonoid M] [LinearOrder M]

/-- The prefix that is read until `c` and the values of the items reach the threshold. -/
def reach (f : ι → M) (threshold : M) : M → List ι → List ι
  | _, [] => []
  | c, a :: as => if threshold ≤ c + f a then [a] else a :: reach f threshold (c + f a) as

variable {f : ι → M} {threshold : M}

theorem reach_isPrefix (c : M) (xs : List ι) : reach f threshold c xs <+: xs := by
  induction xs generalizing c with
  | nil => exact List.prefix_rfl
  | cons a as ih =>
    rw [reach]
    split
    · exact ⟨as, rfl⟩
    · exact List.cons_prefix_cons.mpr ⟨rfl, ih _⟩

/-- If all items together reach the threshold, the prefix does. -/
theorem le_sum_reach {c : M} {xs : List ι} (hne : xs ≠ []) (h : threshold ≤ c + (xs.map f).sum) :
    threshold ≤ c + ((reach f threshold c xs).map f).sum := by
  induction xs generalizing c with
  | nil => exact absurd rfl hne
  | cons a as ih =>
    rw [reach]
    split
    · simpa
    · rename_i hlt
      rw [List.map_cons, List.sum_cons, ← add_assoc] at h ⊢
      refine ih (fun hnil => hlt ?_) h
      simpa [hnil] using h

/-- No shorter prefix reaches the threshold. -/
theorem sum_take_lt_of_lt {c : M} {xs : List ι} (hc : c < threshold) {k : ℕ}
    (hk : k < (reach f threshold c xs).length) : c + ((xs.take k).map f).sum < threshold := by
  induction xs generalizing c k with
  | nil => exact absurd hk (Nat.not_lt_zero k)
  | cons a as ih =>
    cases k with
    | zero => simpa
    | succ k =>
      rw [reach] at hk
      split at hk
      · simp at hk
      · rename_i hlt
        rw [List.take_succ_cons, List.map_cons, List.sum_cons, ← add_assoc]
        refine ih (not_le.mp hlt) ?_
        rw [List.length_cons] at hk
        omega

/-- A larger threshold only extends the prefix. -/
theorem reach_mono {threshold' : M} (h : threshold ≤ threshold') (c : M) (xs : List ι) :
    reach f threshold c xs <+: reach f threshold' c xs := by
  induction xs generalizing c with
  | nil => exact List.prefix_rfl
  | cons a as ih =>
    rw [reach, reach]
    split
    · split
      · exact List.prefix_rfl
      · exact List.cons_prefix_cons.mpr ⟨rfl, List.nil_prefix⟩
    · rename_i hlt
      rw [if_neg fun h' => hlt (h.trans h')]
      exact List.cons_prefix_cons.mpr ⟨rfl, ih _⟩

/-- The first `k` items have the largest sum among all sets of at most `k` items. -/
theorem sum_le_sum_take [DecidableEq ι] [IsOrderedAddMonoid M] {xs : List ι}
    (hsorted : xs.Pairwise fun a b => f b ≤ f a) (hnonneg : ∀ a ∈ xs, 0 ≤ f a) {k : ℕ} {s : Finset ι}
    (hs : ∀ a ∈ s, a ∈ xs) (hcard : s.card ≤ k) : ∑ a ∈ s, f a ≤ ((xs.take k).map f).sum := by
  induction xs generalizing k s with
  | nil =>
    obtain rfl : s = ∅ := Finset.eq_empty_of_forall_notMem fun a ha => by simpa using hs a ha
    simp
  | cons x xs ih =>
    have hx := (List.pairwise_cons.mp hsorted).1
    have ih {k : ℕ} {s : Finset ι} := @ih (List.pairwise_cons.mp hsorted).2
      (fun a ha => hnonneg a (List.mem_cons_of_mem x ha)) k s
    have htail : ∀ a ∈ s, a ≠ x → a ∈ xs := fun a ha hne => (List.mem_cons.mp (hs a ha)).resolve_left hne
    cases k with
    | zero =>
      obtain rfl : s = ∅ := Finset.card_eq_zero.mp (by omega)
      simp
    | succ k =>
      rw [List.take_succ_cons, List.map_cons, List.sum_cons]
      rcases s.eq_empty_or_nonempty with rfl | ⟨b, hb⟩
      · have := add_le_add (hnonneg x (by simp)) (ih (s := ∅) (k := k) (by simp) (by simp))
        simpa using this
      · by_cases hxs : x ∈ s
        · rw [← Finset.add_sum_erase s f hxs]
          gcongr
          refine ih (fun a ha => ?_) ?_
          · exact htail a (Finset.mem_of_mem_erase ha) (Finset.ne_of_mem_erase ha)
          · rw [Finset.card_erase_of_mem hxs]
            omega
        · -- exchange an item of the set with the first one
          have hne : ∀ a ∈ s, a ≠ x := fun a ha heq => hxs (heq ▸ ha)
          rw [← Finset.add_sum_erase s f hb]
          refine add_le_add (hx b (htail b hb (hne b hb))) (ih (fun a ha => ?_) ?_)
          · have ha := Finset.mem_of_mem_erase ha
            exact htail a ha (hne a ha)
          · rw [Finset.card_erase_of_mem hb]
            omega

end Greedy
