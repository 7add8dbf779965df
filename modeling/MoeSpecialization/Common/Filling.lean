import Mathlib.Algebra.BigOperators.Group.Finset.Basic
import Mathlib.Algebra.BigOperators.Group.Finset.Piecewise
import Mathlib.Algebra.Order.BigOperators.Group.Finset
import Mathlib.Algebra.GroupWithZero.Nat
import Mathlib.Data.List.GetD
import Mathlib.Data.List.Sort
import Mathlib.Data.Set.Function
import Mathlib.Order.Interval.Set.Defs

/-!
# Numbered places in bins

Objects are put into the bins `0, ..., m - 1`, and each gets the next free place of its bin. `Fills` says
that this numbers the objects: the objects correspond one to one to the places `(bin, place)` with
`place < cnt bin`. Every way to build such a numbering is a rule here: one more object
(`Fills.insert`), several families of bins one behind the other (`Fills.glue`), other names for the bins
(`Fills.relabel`), and reading the objects in another order (`Fills.comp`).

Positions below `m * k` are the pairs of a block and an offset, which is the case of bins of one size.
-/

namespace Filling

variable {ι κ : Type}

/-- `f` numbers the objects of `S`: they are the places of `m` bins of which bin `p` holds `cnt p`. -/
def Fills (S : Set ι) (f : ι → ℕ × ℕ) (m : ℕ) (cnt : ℕ → ℕ) : Prop :=
  Set.BijOn f S {x | x.1 < m ∧ x.2 < cnt x.1}

/-- The position of a place when every bin has `k` places. -/
def position (k : ℕ) (x : ℕ × ℕ) : ℕ := x.1 * k + x.2

theorem position_div {k : ℕ} {x : ℕ × ℕ} (h : x.2 < k) : position k x / k = x.1 := by
  rw [position, Nat.mul_comm, Nat.mul_add_div (Nat.zero_lt_of_lt h), Nat.div_eq_of_lt h, Nat.add_zero]

theorem position_mod {k : ℕ} {x : ℕ × ℕ} (h : x.2 < k) : position k x % k = x.2 := by
  rw [position, Nat.mul_comm, Nat.mul_add_mod, Nat.mod_eq_of_lt h]

theorem position_lt {m k : ℕ} {x : ℕ × ℕ} (h₁ : x.1 < m) (h₂ : x.2 < k) : position k x < m * k := by
  calc position k x < x.1 * k + k := Nat.add_lt_add_left h₂ _
    _ = (x.1 + 1) * k := by rw [Nat.add_mul, Nat.one_mul]
    _ ≤ m * k := Nat.mul_le_mul_right k h₁

theorem position_div_mod (k s : ℕ) : position k (s / k, s % k) = s := by
  rw [position, Nat.mul_comm]
  exact Nat.div_add_mod s k

theorem div_lt {m k s : ℕ} (h : s < m * k) : s / k < m :=
  Nat.div_lt_of_lt_mul (by rwa [Nat.mul_comm])

theorem mod_lt {m k s : ℕ} (h : s < m * k) : s % k < k := by
  apply Nat.mod_lt
  apply Nat.pos_of_ne_zero
  rintro rfl
  exact absurd h (by simp)

/-- Block and offset number the positions. -/
theorem fills_divMod (m k : ℕ) : Fills (Set.Iio (m * k)) (fun s => (s / k, s % k)) m fun _ => k := by
  refine ⟨fun s hs => ⟨div_lt hs, mod_lt hs⟩, fun s _ t _ h => ?_, fun x hx => ?_⟩
  · rw [← position_div_mod k s, ← position_div_mod k t]
    exact congrArg (position k) h
  · refine ⟨position k x, position_lt hx.1 hx.2, ?_⟩
    show (position k x / k, position k x % k) = x
    rw [position_div hx.2, position_mod hx.2]

/-- The places of bins of one size are the positions. -/
theorem bijOn_position (m k : ℕ) :
    Set.BijOn (position k) {x | x.1 < m ∧ x.2 < k} (Set.Iio (m * k)) := by
  refine ⟨fun x hx => position_lt hx.1 hx.2, fun x hx y hy h => ?_, fun s hs => ?_⟩
  · rw [← Prod.mk.eta (p := x), ← Prod.mk.eta (p := y), ← position_div hx.2, ← position_mod hx.2, h,
      position_div hy.2, position_mod hy.2]
  · exact ⟨(s / k, s % k), ⟨div_lt hs, mod_lt hs⟩, position_div_mod k s⟩

theorem fills_empty (f : ι → ℕ × ℕ) (m : ℕ) : Fills ∅ f m fun _ => 0 := by
  refine ⟨fun _ hi => absurd hi (Set.notMem_empty _), fun _ hi => absurd hi (Set.notMem_empty _), ?_⟩
  rintro x ⟨-, hx⟩
  exact absurd hx (Nat.not_lt_zero _)

/-- One object in each bin. -/
theorem fills_ones (m : ℕ) : Fills (Set.Iio m) (fun i => (i, 0)) m fun _ => 1 := by
  refine ⟨fun i hi => ⟨hi, Nat.one_pos⟩, fun i _ j _ h => congrArg Prod.fst h, fun x hx => ?_⟩
  refine ⟨x.1, hx.1, ?_⟩
  show (x.1, 0) = x
  rw [← Nat.lt_one_iff.mp hx.2]

section

variable {S : Set ι} {f : ι → ℕ × ℕ} {m : ℕ} {cnt : ℕ → ℕ}

theorem Fills.bin_lt (h : Fills S f m cnt) {i : ι} (hi : i ∈ S) : (f i).1 < m := (h.mapsTo hi).1

theorem Fills.place_lt (h : Fills S f m cnt) {i : ι} (hi : i ∈ S) : (f i).2 < cnt (f i).1 :=
  (h.mapsTo hi).2

theorem Fills.congr {f' : ι → ℕ × ℕ} {cnt' : ℕ → ℕ} (h : Fills S f m cnt) (hf : Set.EqOn f f' S)
    (hcnt : ∀ p < m, cnt p = cnt' p) : Fills S f' m cnt' := by
  have hset : {x : ℕ × ℕ | x.1 < m ∧ x.2 < cnt x.1} = {x | x.1 < m ∧ x.2 < cnt' x.1} := by
    ext x
    refine and_congr_right fun hx => ?_
    rw [hcnt x.1 hx]
  rw [Fills, ← hset]
  exact Set.BijOn.congr h hf

/-- The objects of the bins in another order, or under other names. -/
theorem Fills.comp {T : Set κ} {g : κ → ι} (h : Fills S f m cnt) (hg : Set.BijOn g T S) :
    Fills T (f ∘ g) m cnt :=
  Set.BijOn.comp h hg

/-- One more object, in the next place of bin `p`. -/
theorem Fills.insert [DecidableEq ι] (h : Fills S f m cnt) {i : ι} (hi : i ∉ S) {p : ℕ} (hp : p < m) :
    Fills (insert i S) (Function.update f i (p, cnt p)) m (Function.update cnt p (cnt p + 1)) := by
  have hother : Set.EqOn f (Function.update f i (p, cnt p)) S := by
    intro j hj
    rw [Function.update_of_ne]
    rintro rfl
    exact hi hj
  have hset : {x : ℕ × ℕ | x.1 < m ∧ x.2 < Function.update cnt p (cnt p + 1) x.1} =
      Insert.insert (p, cnt p) {x | x.1 < m ∧ x.2 < cnt x.1} := by
    ext ⟨q, k⟩
    rw [Set.mem_insert_iff, Prod.mk.injEq]
    show q < m ∧ k < Function.update cnt p (cnt p + 1) q ↔ q = p ∧ k = cnt p ∨ q < m ∧ k < cnt q
    by_cases hq : q = p
    · subst hq
      rw [Function.update_self]
      omega
    · rw [Function.update_of_ne hq]
      tauto
  have hnew : Function.update f i (p, cnt p) i = (p, cnt p) := Function.update_self i _ f
  have hbij := Set.BijOn.insert (Set.BijOn.congr h hother) (a := i) (by
    rw [hnew]
    exact fun hplace => absurd hplace.2 (Nat.lt_irrefl _))
  rwa [hnew, ← hset] at hbij

/-- Bins under other names. -/
theorem Fills.relabel (h : Fills S f m cnt) {σ : ℕ → ℕ} (hσ : Set.BijOn σ (Set.Iio m) (Set.Iio m))
    {cnt' : ℕ → ℕ} (hcnt : ∀ p < m, cnt' (σ p) = cnt p) :
    Fills S (fun i => (σ (f i).1, (f i).2)) m cnt' := by
  refine ⟨fun i hi => ⟨hσ.mapsTo (h.bin_lt hi), ?_⟩, fun i hi j hj hij => ?_, fun x hx => ?_⟩
  · rw [hcnt _ (h.bin_lt hi)]
    exact h.place_lt hi
  · rw [Prod.mk.injEq] at hij
    exact h.injOn hi hj (Prod.ext (hσ.injOn (h.bin_lt hi) (h.bin_lt hj) hij.1) hij.2)
  · obtain ⟨p, hp, hpx⟩ := hσ.surjOn hx.1
    have hplace : (p, x.2) ∈ {x : ℕ × ℕ | x.1 < m ∧ x.2 < cnt x.1} := by
      refine ⟨hp, ?_⟩
      rw [← hcnt p hp, hpx]
      exact hx.2
    obtain ⟨i, hi, hix⟩ := h.surjOn hplace
    refine ⟨i, hi, ?_⟩
    show (σ (f i).1, (f i).2) = x
    rw [hix, hpx]

end

/-- `nodes` families of `m` bins each, one behind the other. -/
theorem Fills.glue {nodes n m : ℕ} {f : ℕ → ℕ → ℕ × ℕ} {cnt : ℕ → ℕ → ℕ}
    (h : ∀ ν < nodes, Fills (Set.Iio n) (f ν) m (cnt ν)) :
    Fills (Set.Iio (nodes * n))
      (fun s => (position m (s / n, (f (s / n) (s % n)).1), (f (s / n) (s % n)).2)) (nodes * m)
      fun p => cnt (p / m) (p % m) := by
  have hbin {s : ℕ} (hs : s < nodes * n) : (f (s / n) (s % n)).1 < m :=
    (h _ (div_lt hs)).bin_lt (mod_lt hs)
  refine ⟨fun s hs => ⟨position_lt (div_lt hs) (hbin hs), ?_⟩, fun s hs t ht hst => ?_, fun x hx => ?_⟩
  · show _ < cnt (position m (_, _) / m) (position m (_, _) % m)
    rw [position_div (hbin hs), position_mod (hbin hs)]
    exact (h _ (div_lt hs)).place_lt (mod_lt hs)
  · have hpos := (bijOn_position nodes m).injOn ⟨div_lt hs, hbin hs⟩ ⟨div_lt ht, hbin ht⟩
      (congrArg Prod.fst hst)
    have hdiv : s / n = t / n := congrArg Prod.fst hpos
    have hmod : s % n = t % n := by
      apply (h _ (div_lt hs)).injOn (mod_lt hs) (mod_lt ht)
      refine Prod.ext ?_ ?_
      · exact (congrArg Prod.snd hpos).trans (by rw [hdiv])
      · exact (congrArg Prod.snd hst).trans (by rw [hdiv])
    rw [← position_div_mod n s, ← position_div_mod n t, hdiv, hmod]
  · obtain ⟨i, hi, hix⟩ := (h _ (div_lt hx.1)).surjOn
      (show (x.1 % m, x.2) ∈ {y : ℕ × ℕ | y.1 < m ∧ y.2 < cnt (x.1 / m) y.1} from ⟨mod_lt hx.1, hx.2⟩)
    refine ⟨position n (x.1 / m, i), position_lt (div_lt hx.1) hi, ?_⟩
    have hi : i < n := hi
    show (position m (position n _ / n, (f (position n _ / n) (position n _ % n)).1),
      (f (position n _ / n) (position n _ % n)).2) = x
    rw [position_div hi, position_mod hi, hix, position_div_mod]

/-- Whole blocks moved by a permutation of the blocks. -/
theorem bijOn_blocks {m k : ℕ} {σ : ℕ → ℕ} (hσ : Set.BijOn σ (Set.Iio m) (Set.Iio m)) :
    Set.BijOn (fun s => position k (σ (s / k), s % k)) (Set.Iio (m * k)) (Set.Iio (m * k)) := by
  have hmoved : Fills (Set.Iio (m * k)) (fun s => (σ (s / k), s % k)) m fun _ => k :=
    (fills_divMod m k).relabel hσ fun _ _ => rfl
  exact (bijOn_position m k).comp hmoved

/-- Every block permuted within itself. -/
theorem bijOn_glue {m n : ℕ} {σ : ℕ → ℕ → ℕ} (hσ : ∀ ν < m, Set.BijOn (σ ν) (Set.Iio n) (Set.Iio n)) :
    Set.BijOn (fun s => position n (s / n, σ (s / n) (s % n))) (Set.Iio (m * n)) (Set.Iio (m * n)) := by
  have hin {s : ℕ} (hs : s < m * n) : σ (s / n) (s % n) < n := (hσ _ (div_lt hs)).mapsTo (mod_lt hs)
  refine ⟨fun s hs => position_lt (div_lt hs) (hin hs), fun s hs t ht hst => ?_, fun t ht => ?_⟩
  · have hpair := (bijOn_position m n).injOn ⟨div_lt hs, hin hs⟩ ⟨div_lt ht, hin ht⟩ hst
    have hdiv : s / n = t / n := congrArg Prod.fst hpair
    have hmod : σ (s / n) (s % n) = σ (t / n) (t % n) := congrArg Prod.snd hpair
    rw [← hdiv] at hmod
    rw [← position_div_mod n s, ← position_div_mod n t, hdiv,
      (hσ _ (div_lt hs)).injOn (mod_lt hs) (mod_lt ht) hmod]
  · obtain ⟨i, hi, hit⟩ := (hσ _ (div_lt ht)).surjOn (mod_lt ht)
    have hi : i < n := hi
    refine ⟨position n (t / n, i), position_lt (div_lt ht) hi, ?_⟩
    show position n (position n _ / n, σ (position n _ / n) (position n _ % n)) = t
    rw [position_div hi, position_mod hi, hit, position_div_mod]

/-- A list of all positions is a permutation of them. -/
theorem bijOn_getD {l : List ℕ} {n : ℕ} (h : l.Perm (List.range n)) :
    Set.BijOn (fun j => l.getD j 0) (Set.Iio n) (Set.Iio n) := by
  have hlen : l.length = n := by rw [h.length_eq, List.length_range]
  have hlt {j : ℕ} (hj : j < n) : j < l.length := by rwa [hlen]
  refine ⟨fun j hj => ?_, fun i hi j hj hij => ?_, fun s hs => ?_⟩
  · show l.getD j 0 < n
    rw [List.getD_eq_getElem _ _ (hlt hj)]
    exact List.mem_range.mp (h.mem_iff.mp (List.getElem_mem _))
  · have hij : l.getD i 0 = l.getD j 0 := hij
    rw [List.getD_eq_getElem _ _ (hlt hi), List.getD_eq_getElem _ _ (hlt hj)] at hij
    exact (h.nodup_iff.mpr List.nodup_range).getElem_inj_iff.mp hij
  · obtain ⟨j, hj, hjs⟩ := List.getElem_of_mem (h.mem_iff.mpr (List.mem_range.mpr hs))
    refine ⟨j, by rwa [← hlen], ?_⟩
    show l.getD j 0 = s
    rw [List.getD_eq_getElem _ _ hj, hjs]

/-- The positions in the order of the values of a permutation: the inverse of it. -/
theorem getD_of_sorted {l : List ℕ} {n : ℕ} (h : l.Perm (List.range n)) {ρ : ℕ → ℕ}
    (hρ : Set.BijOn ρ (Set.Iio n) (Set.Iio n)) (hsorted : l.Pairwise fun i j => ρ i ≤ ρ j) :
    ∀ c < n, l.getD (ρ c) 0 = c := by
  have hmem {i : ℕ} (hi : i ∈ l) : i < n := List.mem_range.mp (h.mem_iff.mp hi)
  -- the values in that order are all positions in their order
  have hvalues : l.map ρ = List.range n := by
    have hperm : (l.map ρ).Perm (List.range n) := by
      refine (List.perm_ext_iff_of_nodup ?_ List.nodup_range).mpr fun x => ?_
      · exact (h.nodup_iff.mpr List.nodup_range).map_on fun i hi j hj hij => hρ.injOn (hmem hi) (hmem hj) hij
      · rw [List.mem_map, List.mem_range]
        constructor
        · rintro ⟨i, hi, rfl⟩
          exact hρ.mapsTo (hmem hi)
        · intro hx
          obtain ⟨i, hi, hix⟩ := hρ.surjOn hx
          exact ⟨i, h.mem_iff.mpr (List.mem_range.mpr hi), hix⟩
    exact hperm.eq_of_pairwise' (List.pairwise_map.mpr hsorted) List.pairwise_le_range
  intro c hc
  have hρc : ρ c < n := hρ.mapsTo hc
  have hat : (l.map ρ)[ρ c]? = some (ρ c) := by rw [hvalues, List.getElem?_range hρc]
  rw [List.getElem?_map] at hat
  obtain ⟨x, hx, hxρ⟩ := Option.map_eq_some_iff.mp hat
  rw [List.getD_eq_getElem?_getD, hx, Option.getD_some]
  exact hρ.injOn (hmem (List.mem_of_getElem? hx)) hc hxρ

/-- Bins that together hold as much as they can are all full. -/
theorem eq_of_sum_eq {m k : ℕ} {cnt : ℕ → ℕ} (hle : ∀ p < m, cnt p ≤ k)
    (hsum : ∑ p ∈ Finset.range m, cnt p = m * k) : ∀ p < m, cnt p = k := by
  have hconst : ∑ p ∈ Finset.range m, cnt p = ∑ _p ∈ Finset.range m, k := by
    rw [hsum, Finset.sum_const, Finset.card_range, Nat.nsmul_eq_mul]
  have heq := (Finset.sum_eq_sum_iff_of_le fun p hp => hle p (Finset.mem_range.mp hp)).mp hconst
  exact fun p hp => heq p (Finset.mem_range.mpr hp)

/-- While they hold less, one of them has room. -/
theorem exists_lt_of_sum_lt {m k : ℕ} {cnt : ℕ → ℕ}
    (hsum : ∑ p ∈ Finset.range m, cnt p < m * k) : ∃ p < m, cnt p < k := by
  have hconst : ∑ p ∈ Finset.range m, cnt p < ∑ _p ∈ Finset.range m, k := by
    rwa [Finset.sum_const, Finset.card_range, Nat.nsmul_eq_mul]
  obtain ⟨p, hp, hlt⟩ := Finset.exists_lt_of_sum_lt hconst
  exact ⟨p, Finset.mem_range.mp hp, hlt⟩

theorem sum_update_succ {m p : ℕ} (cnt : ℕ → ℕ) (hp : p < m) :
    ∑ q ∈ Finset.range m, Function.update cnt p (cnt p + 1) q = ∑ q ∈ Finset.range m, cnt q + 1 := by
  have hp := Finset.mem_range.mpr hp
  rw [Finset.sum_update_of_mem hp, Finset.sdiff_singleton_eq_erase, ← Finset.add_sum_erase _ _ hp]
  omega

/-- A sum over one block of positions. -/
theorem sum_block {M : Type*} [AddCommMonoid M] {m k a : ℕ} (f : ℕ → M) (ha : a < m) :
    ∑ j ∈ Finset.range (m * k), (if j / k = a then f j else 0) =
      ∑ i ∈ Finset.range k, f (position k (a, i)) := by
  rw [← Finset.sum_filter]
  symm
  apply Finset.sum_nbij fun i => position k (a, i)
  · intro i hi
    have hi : i < k := Finset.mem_range.mp hi
    rw [Finset.mem_filter, Finset.mem_range, position_div hi]
    exact ⟨position_lt ha hi, rfl⟩
  · intro i hi j hj hij
    have hi : i < k := Finset.mem_range.mp (Finset.mem_coe.mp hi)
    have hj : j < k := Finset.mem_range.mp (Finset.mem_coe.mp hj)
    have hpair := (bijOn_position m k).injOn (show (a, i) ∈ {x : ℕ × ℕ | x.1 < m ∧ x.2 < k} from ⟨ha, hi⟩)
      (show (a, j) ∈ {x : ℕ × ℕ | x.1 < m ∧ x.2 < k} from ⟨ha, hj⟩) hij
    exact congrArg Prod.snd hpair
  · intro j hj
    obtain ⟨hj, hja⟩ := Finset.mem_filter.mp (Finset.mem_coe.mp hj)
    have hj := Finset.mem_range.mp hj
    refine ⟨j % k, Finset.mem_coe.mpr (Finset.mem_range.mpr (mod_lt hj)), ?_⟩
    show position k (a, j % k) = j
    rw [← hja, position_div_mod]
  · intro i _
    rfl

/-- A sum read in the order of a permutation. -/
theorem sum_bijOn {M : Type*} [AddCommMonoid M] {n : ℕ} {σ : ℕ → ℕ} (f : ℕ → M)
    (hσ : Set.BijOn σ (Set.Iio n) (Set.Iio n)) :
    ∑ i ∈ Finset.range n, f i = ∑ j ∈ Finset.range n, f (σ j) := by
  symm
  apply Finset.sum_nbij σ
  · exact fun j hj => Finset.mem_range.mpr (hσ.mapsTo (Finset.mem_range.mp hj))
  · rw [Finset.coe_range]
    exact hσ.injOn
  · rw [Finset.coe_range]
    exact hσ.surjOn
  · intro j _
    rfl

end Filling
