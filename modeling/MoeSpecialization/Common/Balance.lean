import Mathlib.Algebra.Order.BigOperators.Group.Finset
import Mathlib.Algebra.Order.Field.Basic
import Mathlib.Data.Finset.Max
import Mathlib.Tactic.Linarith
import Mathlib.Tactic.Ring

/-!
# Greedy load balancing

Two greedy procedures over an ordered field. The first puts items, from the heaviest on, into packs of one
capacity, each into the lightest pack that has room: whatever the order in which packs fill up, the loads
of full packs differ by at most the heaviest item (`Packed.sub_le`). The pack that fills up early is the
difficulty, since later items cannot go there; what it lacks is bounded by the items that are still to
come, and `Packed.levelled` counts them at the weight of the last item.

The second gives out copies one at a time, each to the item with the largest share `w i / c i`. The
largest share in the end is the smallest that any distribution of as many copies reaches
(`Shared.optimal`).
-/

namespace Balance

variable {K : Type*} [Field K] [LinearOrder K] [IsStrictOrderedRing K]

/-! ## Packs of one capacity -/

/-- The loads `W` and the counts `C` of `m` packs of capacity `cap` after items of weight at least `v` and
at most `M`. -/
structure Packed (m cap : ℕ) (M v : K) (W : ℕ → K) (C : ℕ → ℕ) : Prop where
  levelled : ∀ p < m, ∀ q < m, W p - W q + ((C q : K) - C p) * v ≤ M
  room : ∀ p < m, ∀ q < m, C q < cap → W p - W q ≤ M

omit [IsStrictOrderedRing K] in
theorem packed_zero (m cap : ℕ) {M v : K} (hM : 0 ≤ M) : Packed m cap M v (fun _ => 0) fun _ => 0 := by
  constructor
  · intro p _ q _
    simpa using hM
  · intro p _ q _ _
    simpa using hM

section

variable {m cap : ℕ} {M v : K} {W : ℕ → K} {C : ℕ → ℕ}

/-- The bound for a lighter item. -/
theorem Packed.lower (h : Packed m cap M v W C) (hcap : ∀ p < m, C p ≤ cap) {u : K} (hu : 0 ≤ u)
    (huv : u ≤ v) {p q : ℕ} (hp : p < m) (hq : q < m) : W p - W q + ((C q : K) - C p) * u ≤ M := by
  rcases Nat.lt_or_ge (C q) (C p) with hlt | hle
  -- `q` has room, so the loads alone are close
  · have hroom := h.room p hp q hq (lt_of_lt_of_le hlt (hcap p hp))
    have hneg : ((C q : K) - C p) * u ≤ 0 :=
      mul_nonpos_of_nonpos_of_nonneg (sub_nonpos.mpr (Nat.cast_le.mpr (Nat.le_of_lt hlt))) hu
    linarith
  · have hmono : ((C q : K) - C p) * u ≤ ((C q : K) - C p) * v :=
      mul_le_mul_of_nonneg_left huv (sub_nonneg.mpr (Nat.cast_le.mpr hle))
    linarith [h.levelled p hp q hq]

/-- An item that is not heavier than those before goes into the lightest pack with room. -/
theorem Packed.add (h : Packed m cap M v W C) (hcap : ∀ p < m, C p ≤ cap) {u : K} (hu : 0 ≤ u)
    (huv : u ≤ v) (huM : u ≤ M) {r : ℕ} (hr : r < m) (hmin : ∀ q < m, C q < cap → W r ≤ W q) :
    Packed m cap M u (Function.update W r (W r + u)) (Function.update C r (C r + 1)) := by
  constructor
  · intro p hp q hq
    have hlow := h.lower hcap hu huv hp hq
    -- an item of weight `u` adds as much to the load as its count takes away
    by_cases hpr : p = r
    · subst hpr
      by_cases hqp : q = p
      · subst hqp
        have hM := le_trans hu huM
        simpa using hM
      · rw [Function.update_self, Function.update_self, Function.update_of_ne hqp,
          Function.update_of_ne hqp]
        push_cast
        linarith
    · by_cases hqr : q = r
      · subst hqr
        rw [Function.update_self, Function.update_self, Function.update_of_ne hpr,
          Function.update_of_ne hpr]
        push_cast
        linarith
      · rwa [Function.update_of_ne hpr, Function.update_of_ne hpr, Function.update_of_ne hqr,
          Function.update_of_ne hqr]
  · intro p hp q hq hlt
    have hq' : C q < cap := by
      by_cases hqr : q = r
      · subst hqr
        rw [Function.update_self] at hlt
        exact Nat.lt_of_succ_lt hlt
      · rwa [Function.update_of_ne hqr] at hlt
    have hroom := h.room p hp q hq hq'
    by_cases hpr : p = r
    · subst hpr
      by_cases hqp : q = p
      · subst hqp
        simpa using le_trans hu huM
      · rw [Function.update_self, Function.update_of_ne hqp]
        linarith [hmin q hq hq']
    · rw [Function.update_of_ne hpr]
      by_cases hqr : q = r
      · subst hqr
        rw [Function.update_self]
        linarith
      · rwa [Function.update_of_ne hqr]

omit [IsStrictOrderedRing K] in
/-- The loads of packs with as many items each. -/
theorem Packed.sub_le (h : Packed m cap M v W C) {p q : ℕ} (hp : p < m) (hq : q < m) (heq : C p = C q) :
    W p - W q ≤ M := by
  have hlevel := h.levelled p hp q hq
  rwa [heq, sub_self, zero_mul, add_zero] at hlevel

end

/-! ## Copies -/

/-- The counts `c` of the copies of `n` items with weights `w`: no item would have had a smaller share
than an item has now, before it got its last copy. -/
structure Shared (w : ℕ → K) (n : ℕ) (c : ℕ → ℕ) : Prop where
  pos : ∀ i < n, 0 < c i
  last : ∀ i < n, ∀ k, c i = k + 1 → 0 < k → ∀ j < n, w j / c j ≤ w i / k

omit [IsStrictOrderedRing K] in
theorem shared_ones (w : ℕ → K) (n : ℕ) : Shared w n fun _ => 1 := by
  refine ⟨fun _ _ => Nat.one_pos, fun i _ k hk hpos => ?_⟩
  omega

section

variable {w : ℕ → K} {n : ℕ} {c : ℕ → ℕ}

/-- A larger count makes the share smaller. -/
theorem share_le {x : K} (hx : 0 ≤ x) {a b : ℕ} (ha : 0 < a) (hab : a ≤ b) : x / b ≤ x / a :=
  div_le_div_of_nonneg_left hx (Nat.cast_pos.mpr ha) (Nat.cast_le.mpr hab)

/-- One more copy for the item with the largest share. -/
theorem Shared.add (h : Shared w n c) (hw : ∀ i < n, 0 ≤ w i) {r : ℕ} (hr : r < n)
    (hmax : ∀ j < n, w j / c j ≤ w r / c r) : Shared w n (Function.update c r (c r + 1)) := by
  have hmore (j : ℕ) : c j ≤ Function.update c r (c r + 1) j := by
    by_cases hjr : j = r
    · rw [hjr, Function.update_self]
      exact Nat.le_succ _
    · rw [Function.update_of_ne hjr]
  have hshare (j : ℕ) (hj : j < n) : w j / (Function.update c r (c r + 1) j : ℕ) ≤ w j / c j :=
    share_le (hw j hj) (h.pos j hj) (hmore j)
  refine ⟨fun i hi => lt_of_lt_of_le (h.pos i hi) (hmore i), fun i hi k hk hpos j hj => ?_⟩
  by_cases hir : i = r
  · subst hir
    rw [Function.update_self] at hk
    rw [← Nat.succ.inj hk]
    exact le_trans (hshare j hj) (hmax j hj)
  · rw [Function.update_of_ne hir] at hk
    exact le_trans (hshare j hj) (h.last i hi k hk hpos j hj)

/-- No distribution of as many copies, with a copy for every item, has a smaller largest share. -/
theorem Shared.optimal (h : Shared w n c) (hw : ∀ i < n, 0 ≤ w i) (hn : 0 < n) {d : ℕ → ℕ}
    (hd : ∀ i < n, 0 < d i) (hsum : ∑ i ∈ Finset.range n, d i ≤ ∑ i ∈ Finset.range n, c i) :
    ∃ i < n, ∀ j < n, w j / c j ≤ w i / d i := by
  by_cases hex : ∃ i < n, d i < c i
  · obtain ⟨i, hi, hlt⟩ := hex
    have hdi := hd i hi
    obtain ⟨k, hk⟩ : ∃ k, c i = k + 1 := ⟨c i - 1, by omega⟩
    refine ⟨i, hi, fun j hj => ?_⟩
    calc w j / c j ≤ w i / k := h.last i hi k hk (by omega) j hj
      _ ≤ w i / d i := share_le (hw i hi) hdi (by omega)
  -- otherwise the two distributions are the same
  · have hle : ∀ i ∈ Finset.range n, c i ≤ d i := by
      intro i hi
      by_contra hlt
      exact hex ⟨i, Finset.mem_range.mp hi, not_le.mp hlt⟩
    have heq := (Finset.sum_eq_sum_iff_of_le hle).mp (le_antisymm (Finset.sum_le_sum hle) hsum)
    obtain ⟨i, hi, hmax⟩ := Finset.exists_max_image (Finset.range n) (fun i => w i / c i)
      ⟨0, Finset.mem_range.mpr hn⟩
    refine ⟨i, Finset.mem_range.mp hi, fun j hj => ?_⟩
    rw [← heq i hi]
    exact hmax j (Finset.mem_range.mpr hj)

end

end Balance
