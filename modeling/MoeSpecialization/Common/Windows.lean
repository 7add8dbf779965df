import Mathlib.Data.List.SplitBy
import Mathlib.Algebra.BigOperators.Group.List.Basic
import Mathlib.Algebra.GroupWithZero.Nat

/-!
# Windows and blocks of a list

The windows of length `n` of a list against its blocks, the maximal pieces of consecutive elements that
are related by `r` (`List.splitBy`). A window whose elements are related lies inside one block, because
the elements on the two sides of a block boundary are not related. Hence the number of such windows is
the sum of `length + 1 - n` over the blocks (`countP_windows_eq_sum_blocks`).

If the elements are numbered, a part of the list may have gaps in its numbers. `isChain_filter_iff` says
when the elements that satisfy a predicate have none, `forall_windows_isChain_iff` when no window has one.
-/

namespace Windows

variable {α : Type*} {n : ℕ}

/-- The windows of length `n`, from left to right. -/
def windows (n : ℕ) : List α → List (List α)
  | [] => []
  | x :: xs => if n ≤ xs.length + 1 then (x :: xs).take n :: windows n xs else []

theorem windows_eq_nil {xs : List α} (h : xs.length < n) : windows n xs = [] := by
  cases xs with
  | nil => rfl
  | cons x xs =>
    rw [windows, if_neg]
    simpa using h

theorem length_windows (hn : 1 ≤ n) (xs : List α) : (windows n xs).length = xs.length + 1 - n := by
  induction xs with
  | nil =>
    show 0 = 0 + 1 - n
    omega
  | cons x xs ih =>
    rw [windows]
    split
    · rw [List.length_cons, ih, List.length_cons]
      omega
    · rw [List.length_cons, List.length_nil]
      omega

theorem mem_windows {xs w : List α} (h : w ∈ windows n xs) : w <:+: xs ∧ w.length = n := by
  induction xs with
  | nil => cases h
  | cons x xs ih =>
    rw [windows] at h
    split at h
    · rename_i hlen
      rcases List.mem_cons.mp h with rfl | h
      · refine ⟨(List.take_prefix n _).isInfix, ?_⟩
        rw [List.length_take, List.length_cons]
        omega
      · exact ⟨(ih h).1.trans (List.suffix_cons x xs).isInfix, (ih h).2⟩
    · cases h

/-- If no window across the boundary counts, a count over the windows splits at the boundary. -/
theorem countP_windows_append {good : List α → Bool} {xs ys : List α}
    (hcross : ∀ u v, u ≠ [] → v ≠ [] → u <:+ xs → v <+: ys → good (u ++ v) = false) :
    (windows n (xs ++ ys)).countP good = (windows n xs).countP good + (windows n ys).countP good := by
  induction xs with
  | nil => simp [windows]
  | cons x xs ih =>
    have ih := ih fun u v hu hv hsuff => hcross u v hu hv (hsuff.trans (List.suffix_cons x xs))
    rw [List.cons_append, windows, windows, List.length_append]
    by_cases hin : n ≤ xs.length + 1
    · -- the first window ends before the boundary
      rw [if_pos hin, if_pos (by omega), List.countP_cons, List.countP_cons, ih, ← List.cons_append,
        List.take_append_of_le_length (by simpa using hin)]
      omega
    · rw [windows_eq_nil (by omega : xs.length < n)] at ih
      rw [if_neg hin]
      split
      · rename_i hlen
        -- the first window crosses the boundary
        have htake : ((x :: xs) ++ ys).take n = (x :: xs) ++ ys.take (n - (xs.length + 1)) := by
          rw [List.take_append, List.take_of_length_le (by simp; omega), List.length_cons]
        have hbad := hcross (x :: xs) (ys.take (n - (xs.length + 1))) (by simp)
          (List.ne_nil_of_length_pos (by rw [List.length_take]; omega)) List.suffix_rfl
          (List.take_prefix _ _)
        rw [List.countP_cons, ← List.cons_append, htake, hbad, ih]
        simp
      · simp [windows_eq_nil (by omega : ys.length < n)]

section Blocks

variable {r : α → α → Bool} {p : α → Bool}

/-- A predicate that respects `r` holds on all of a chain or on none of it. -/
theorem forall_of_isChain (hr : ∀ a b, r a b → p a = p b) {xs : List α}
    (hxs : xs.IsChain fun a b => r a b) {a b : α} (ha : a ∈ xs) (hb : b ∈ xs) : p a = p b := by
  have hall : ∀ x ∈ xs, ∀ y ∈ xs, p x = p y := by
    clear ha hb
    induction xs with
    | nil => simp
    | cons x xs ih =>
      have htail := ih hxs.tail
      have hhead : ∀ y ∈ xs, p x = p y := by
        intro y hy
        cases xs with
        | nil => cases hy
        | cons z zs =>
          have hxz : p x = p z := hr x z (List.isChain_cons_cons.mp hxs).1
          rw [hxz, htail z (by simp) y hy]
      intro y hy z hz
      rcases List.mem_cons.mp hy with rfl | hy' <;> rcases List.mem_cons.mp hz with rfl | hz'
      · rfl
      · exact hhead z hz'
      · exact (hhead y hy').symm
      · exact htail y hy' z hz'
  exact hall a ha b hb

variable {good : List α → Bool}

/-- Inside a block either all windows count or none does. -/
theorem countP_windows_block (hn : 1 ≤ n) (hr : ∀ a b, r a b → p a = p b)
    (hgood : ∀ w ≠ [], good w ↔ (w.IsChain fun a b => r a b) ∧ ∀ a ∈ w, p a) {b : List α}
    (hb : b.IsChain fun a b => r a b) :
    (windows n b).countP good = if b.all p then b.length + 1 - n else 0 := by
  split
  · rename_i hall
    rw [← length_windows hn, List.countP_eq_length]
    intro w hw
    obtain ⟨hsub, hlen⟩ := mem_windows hw
    have hchain := List.IsChain.infix hb hsub
    refine (hgood w (List.ne_nil_of_length_pos (by omega))).mpr ⟨hchain, fun a ha => ?_⟩
    exact List.all_eq_true.mp hall a (hsub.subset ha)
  · rename_i hall
    rw [List.countP_eq_zero]
    intro w hw hgoodw
    obtain ⟨hsub, hlen⟩ := mem_windows hw
    have hne : w ≠ [] := List.ne_nil_of_length_pos (by omega)
    obtain ⟨a, ha⟩ := List.exists_mem_of_ne_nil w hne
    have hpa := ((hgood w hne).mp hgoodw).2 a ha
    refine hall (List.all_eq_true.mpr fun c hc => ?_)
    rw [forall_of_isChain hr hb hc (hsub.subset ha), hpa]

/-- The number of windows of related elements that satisfy `p`, by blocks. -/
theorem countP_windows_eq_sum_blocks (hn : 1 ≤ n) (hr : ∀ a b, r a b → p a = p b)
    (hgood : ∀ w ≠ [], good w ↔ (w.IsChain fun a b => r a b) ∧ ∀ a ∈ w, p a) (xs : List α) :
    (windows n xs).countP good =
      (((xs.splitBy r).filter (·.all p)).map fun b => b.length + 1 - n).sum := by
  have hflatten := List.flatten_splitBy r xs
  have hne := List.nil_notMem_splitBy r xs
  have hchain : ∀ b ∈ xs.splitBy r, b.IsChain fun a b => r a b :=
    fun b hb => List.isChain_of_mem_splitBy hb
  have hsep := List.isChain_getLast_head_splitBy r xs
  -- induction over the blocks
  generalize xs.splitBy r = blocks at *
  subst hflatten
  induction blocks with
  | nil => rfl
  | cons b blocks ih =>
    have ih := ih (fun h => hne (List.mem_cons_of_mem b h))
      (fun c hc => hchain c (List.mem_cons_of_mem b hc)) hsep.tail
    rw [List.flatten_cons, countP_windows_append, ih,
      countP_windows_block hn hr hgood (hchain b (by simp)), List.filter_cons]
    · split <;> simp
    · intro u v hu hv hsuff hpre
      have hblocks : blocks.flatten ≠ [] := fun h => hv (List.prefix_nil.mp (h ▸ hpre))
      cases blocks with
      | nil => exact absurd rfl hblocks
      | cons c blocks =>
        obtain ⟨hb, hc, hrel⟩ := (List.isChain_cons_cons.mp hsep).1
        have hhead : v.head hv = c.head hc := by
          rw [hpre.head hv]
          exact List.head_append_of_ne_nil hc
        have hlast : u.getLast hu = b.getLast hb := hsuff.getLast hu
        rw [Bool.eq_false_iff]
        intro hgooduv
        have hcuv := ((hgood (u ++ v) (by simp [hu])).mp hgooduv).1
        have := (List.isChain_append.mp hcuv).2.2 (u.getLast hu)
          (List.getLast?_eq_some_getLast hu) (v.head hv) (List.head?_eq_some_head hv)
        rw [hlast, hhead, hrel] at this
        cases this

end Blocks

/-! ## Block sums in `n` -/

theorem sum_map_length_antitone (blocks : List (List α)) {m : ℕ} (h : n ≤ m) :
    (blocks.map fun b => b.length + 1 - m).sum ≤ (blocks.map fun b => b.length + 1 - n).sum := by
  induction blocks with
  | nil => exact le_rfl
  | cons b blocks ih =>
    rw [List.map_cons, List.sum_cons, List.map_cons, List.sum_cons]
    omega

/-- One more step of the window loses one window in every block that is long enough. -/
theorem sum_map_length_succ (blocks : List (List α)) :
    (blocks.map fun b => b.length + 1 - n).sum =
      (blocks.map fun b => b.length + 1 - (n + 1)).sum +
        blocks.countP fun b => decide (n ≤ b.length) := by
  induction blocks with
  | nil => rfl
  | cons b blocks ih =>
    rw [List.map_cons, List.sum_cons, ih, List.map_cons, List.sum_cons, List.countP_cons]
    by_cases h : n ≤ b.length
    · simp only [h, decide_true, if_true]
      omega
    · simp only [h, decide_false, Bool.false_eq_true, if_false]
      omega

/-! ## Chains of neighbours -/

theorem windows_map {β : Type*} (f : α → β) (xs : List α) :
    windows n (xs.map f) = (windows n xs).map (List.map f) := by
  induction xs with
  | nil => rfl
  | cons x xs ih =>
    rw [List.map_cons, windows, windows, List.length_map, ih]
    split
    · rw [List.map_cons, List.map_take, List.map_cons]
    · rfl

/-- All windows are chains exactly if the windows are single elements, or the list is shorter than a
window, or is a chain itself. -/
theorem forall_windows_isChain_iff {r : α → α → Prop} (hn : 1 ≤ n) (xs : List α) :
    (∀ w ∈ windows n xs, w.IsChain r) ↔ n = 1 ∨ xs.length < n ∨ xs.IsChain r := by
  constructor
  · intro h
    by_cases hone : n = 1
    · exact .inl hone
    refine .inr ?_
    by_cases hshort : xs.length < n
    · exact .inl hshort
    refine .inr ?_
    -- induction over the list: the first window relates the first two elements
    induction xs with
    | nil => exact .nil
    | cons x xs ih =>
      rw [List.length_cons] at hshort
      rw [windows, if_pos (by omega)] at h
      have hfirst := h _ List.mem_cons_self
      by_cases hlen : xs.length < n
      · rwa [List.take_of_length_le (by rw [List.length_cons]; omega)] at hfirst
      · have htail := ih (fun w hw => h w (List.mem_cons_of_mem _ hw)) hlen
        cases xs with
        | nil => exact .singleton x
        | cons y ys =>
          obtain ⟨k, rfl⟩ : ∃ k, n = k + 2 := ⟨n - 2, by omega⟩
          rw [List.take_succ_cons, List.take_succ_cons] at hfirst
          exact List.isChain_cons_cons.mpr ⟨(List.isChain_cons_cons.mp hfirst).1, htail⟩
  · intro h w hw
    obtain ⟨hsub, hlen⟩ := mem_windows hw
    rcases h with hone | hshort | hchain
    · obtain ⟨x, rfl⟩ := List.length_eq_one_iff.mp (hlen.trans hone)
      exact .singleton x
    · rw [windows_eq_nil hshort] at hw
      cases hw
    · exact hchain.infix hsub

/-- The numbers of a list that counts up by one increase. -/
theorem pairwise_of_isChain_succ {f : α → ℕ} {xs : List α}
    (h : xs.IsChain fun a b => f b = f a + 1) : xs.Pairwise fun a b => f a < f b := by
  have hlt : xs.IsChain fun a b => f a < f b := h.imp fun a b hab => by omega
  have htrans : Trans (fun a b : α => f a < f b) (fun a b : α => f a < f b) fun a b : α => f a < f b :=
    ⟨fun hab hbc => hab.trans hbc⟩
  exact hlt.pairwise

/-- If the next number after that of `x` is that of the next element with `p`, no element without `p`
stands before one with it. -/
theorem of_filter_head {f : α → ℕ} {p : α → Bool} {x b c : α} {xs : List α}
    (h : (x :: xs).IsChain fun a b => f b = f a + 1)
    (hhead : ∀ z ∈ (xs.filter p).head?, f z = f x + 1)
    (hgap : ∀ a b c, [a, b, c].Sublist xs → p a → p c → p b) (hsub : [b, c].Sublist xs)
    (hc : p c = true) : p b = true := by
  cases xs with
  | nil => cases hsub
  | cons y ys =>
    obtain ⟨hxy, htail⟩ := List.isChain_cons_cons.mp h
    have hy : p y = true := by
      by_contra hy
      rw [List.filter_cons_of_neg hy] at hhead
      have hcmem : c ∈ y :: ys := hsub.subset (by simp)
      have hc' : c ∈ ys.filter p := by
        rcases List.mem_cons.mp hcmem with rfl | hcmem
        · exact absurd hc hy
        · exact List.mem_filter.mpr ⟨hcmem, hc⟩
      obtain ⟨z, zs, hz⟩ := List.exists_cons_of_ne_nil (List.ne_nil_of_mem hc')
      have hzmem : z ∈ ys := List.mem_of_mem_filter (hz ▸ List.mem_cons_self : z ∈ ys.filter p)
      have hlt := (List.pairwise_cons.mp (pairwise_of_isChain_succ htail)).1 z hzmem
      have hnum := hhead z (by rw [hz]; rfl)
      omega
    rcases List.sublist_cons_iff.mp hsub with hsub | ⟨r, hr, -⟩
    · exact hgap y b c (hsub.cons_cons y) hy hc
    · cases hr
      exact hy

/-- If no other element stands between two elements with `p`, the next number after that of `x` is that
of the next element with `p`. -/
theorem filter_head_of {f : α → ℕ} {p : α → Bool} {x z : α} {xs : List α}
    (h : (x :: xs).IsChain fun a b => f b = f a + 1)
    (hgap : ∀ a b c, [a, b, c].Sublist (x :: xs) → p a → p c → p b) (hx : p x = true)
    (hz : z ∈ (xs.filter p).head?) : f z = f x + 1 := by
  cases xs with
  | nil => cases hz
  | cons y ys =>
    obtain ⟨hxy, -⟩ := List.isChain_cons_cons.mp h
    by_cases hy : p y = true
    · rw [List.filter_cons_of_pos hy] at hz
      cases hz
      exact hxy
    · rw [List.filter_cons_of_neg hy] at hz
      obtain ⟨hz, hpz⟩ := List.mem_filter.mp (List.mem_of_mem_head? hz)
      have hsub : [x, y, z].Sublist (x :: y :: ys) :=
        ((List.singleton_sublist.mpr hz).cons_cons y).cons_cons x
      exact absurd (hgap x y z hsub hx hpz) hy

/-- A list is numbered from left to right without gaps. The elements that satisfy `p` are numbered
without gaps exactly if no other element stands between two of them. -/
theorem isChain_filter_iff {f : α → ℕ} {p : α → Bool} {xs : List α}
    (h : xs.IsChain fun a b => f b = f a + 1) :
    (xs.filter p).IsChain (fun a b => f b = f a + 1) ↔
      ∀ a b c, [a, b, c].Sublist xs → p a → p c → p b := by
  induction xs with
  | nil => simp
  | cons x xs ih =>
    have ih := ih h.tail
    by_cases hx : p x = true
    · rw [List.filter_cons_of_pos hx, List.isChain_cons, ih]
      constructor
      · rintro ⟨hhead, hgap⟩ a b c hsub ha hc
        rcases List.sublist_cons_iff.mp hsub with hsub | ⟨r, hr, hsub⟩
        · exact hgap a b c hsub ha hc
        · cases hr
          exact of_filter_head h hhead hgap hsub hc
      · intro hgap
        exact ⟨fun z hz => filter_head_of h hgap hx hz, fun a b c hsub => hgap a b c (hsub.cons x)⟩
    · rw [List.filter_cons_of_neg hx, ih]
      constructor
      · intro hgap a b c hsub ha hc
        rcases List.sublist_cons_iff.mp hsub with hsub | ⟨r, hr, -⟩
        · exact hgap a b c hsub ha hc
        · cases hr
          exact absurd ha hx
      · intro hgap a b c hsub
        exact hgap a b c (hsub.cons x)

end Windows
