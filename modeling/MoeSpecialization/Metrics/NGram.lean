import MoeSpecialization.Metrics.Sequences
import Mathlib.Data.Finset.Card
import Mathlib.Data.List.Range

/-!
# n-gram statistics

Reference: `calculate_group_ngram_statistics` in `metric/utils/compute_expert_metrics.py` and
`calculate_ngram_statistics` in `metric/utils/n_gram_statistics.py`.

Both slide a window of `n` over the sequence of every request and fold the windows of a layer into
accumulators. They differ in the layers they report, in what they skip and in what they count of a
window.
-/

namespace MoeSpecialization.Metrics

open Py Postprocess

/-! ## Windows -/

/-- The windows of length `n`, from left to right; none if the sequence is shorter. -/
def ngrams (n : ℕ) (seq : List ℤ) : List (List ℤ) :=
  if seq.length < n then []
  else (List.range (seq.length - n + 1)).map fun start => (seq.drop start).take n

section

-- Only the values of the map are read, so that the requests may be of any type.
variable {ρ : Type}

/-- The windows of a layer, request by request. -/
def layerNgrams (seqs : PyDict ρ (PyDict ℤ (List ℤ))) (n : ℕ) (layerIdx : ℤ) : List (List ℤ) :=
  seqs.values.flatMap fun layerData => ngrams n (layerData.getD layerIdx [])

/-- The layers that occur in the sequences. -/
def layersOf (seqs : PyDict ρ (PyDict ℤ (List ℤ))) : List ℤ := seqs.values.flatMap PyDict.keys

end

/-- `max(layers) + 1 if layers else 0`, as the bound of a `range`. -/
def countUpTo (xs : List ℤ) : ℤ := (xs.max?.map (· + 1)).getD 0

/-- A dictionary filled by a loop over `range(n)`. -/
def fillRange {ν : Type} (n : ℕ) (f : ℕ → Except Error ν) : Except Error (PyDict ℕ ν) :=
  (List.range n).foldlM (fun d i => do .ok (d.set i (← f i))) ∅

theorem fillRange_succ {ν : Type} (n : ℕ) (f : ℕ → Except Error ν) :
    fillRange (n + 1) f = fillRange n f >>= fun d => f n >>= fun v => .ok (d.set n v) := by
  rw [fillRange, List.range_succ, List.foldlM_append]
  simp only [List.foldlM_cons, List.foldlM_nil, bind_pure]
  rfl

theorem get?_fillRange {ν : Type} {n i : ℕ} {f : ℕ → Except Error ν} {d : PyDict ℕ ν}
    (h : fillRange n f = .ok d) (hi : i < n) : ∃ v, f i = .ok v ∧ d.get? i = some v := by
  induction n generalizing d with
  | zero => omega
  | succ n ih =>
    rw [fillRange_succ] at h
    obtain ⟨d', hd', h⟩ := except_bind_eq_ok.mp h
    obtain ⟨v, hv, h⟩ := except_bind_eq_ok.mp h
    cases h
    rcases Nat.lt_succ_iff_lt_or_eq.mp hi with hlt | rfl
    · obtain ⟨w, hw, hget⟩ := ih hd' hlt
      exact ⟨w, hw, by rw [PyDict.get?_set_ne _ _ hlt.ne, hget]⟩
    · exact ⟨v, hv, PyDict.get?_set_self _ _ _⟩

theorem exists_fillRange {ν : Type} {n : ℕ} {f : ℕ → Except Error ν}
    (h : ∀ i < n, ∃ v, f i = .ok v) : ∃ d, fillRange n f = .ok d := by
  induction n with
  | zero => exact ⟨∅, rfl⟩
  | succ n ih =>
    obtain ⟨d, hd⟩ := ih fun i hi => h i (by omega)
    obtain ⟨v, hv⟩ := h n (by omega)
    exact ⟨d.set n v, by rw [fillRange_succ, hd, hv]; rfl⟩

theorem lt_countUpTo {xs : List ℤ} {x : ℤ} (h : x ∈ xs) : x < countUpTo xs := by
  obtain ⟨m, hm⟩ : ∃ m, xs.max? = some m :=
    Option.isSome_iff_exists.mp (by simpa [List.isSome_max?_iff] using List.ne_nil_of_mem h)
  have hle := (List.max?_eq_some_iff.mp hm).2 x h
  simp only [countUpTo, hm, Option.map_some, Option.getD_some]
  omega

theorem countUpTo_nonneg {xs : List ℤ} (h : ∀ x ∈ xs, 0 ≤ x) : 0 ≤ countUpTo xs := by
  cases xs with
  | nil => exact le_rfl
  | cons x xs => exact (h x (by simp)).trans (lt_countUpTo (by simp)).le

theorem mem_of_mem_ngrams {n : ℕ} {seq ngram : List ℤ} (h : ngram ∈ ngrams n seq) :
    ngram.length = n ∧ ∀ e ∈ ngram, e ∈ seq := by
  unfold ngrams at h
  split at h
  · cases h
  · rename_i hlen
    obtain ⟨start, hstart, rfl⟩ := List.mem_map.mp h
    rw [List.mem_range] at hstart
    refine ⟨by rw [List.length_take, List.length_drop]; omega, fun e he => ?_⟩
    exact List.mem_of_mem_drop (List.mem_of_mem_take he)

/-! ## The statistics of `compute_expert_metrics.py` -/

namespace ComputeExpertMetrics

/-- The statistics of a layer. -/
structure GroupNgramStatistics where
  totalNgramPaths : ℕ := 0
  groupNgramPaths : ℕ := 0
  groupNgramRatio : ℚ := 0
  uniqueGroupNgramPaths : ℕ := 0
deriving DecidableEq

/-- The accumulators of a layer. -/
structure GroupCounts where
  totalNgramPaths : ℕ := 0
  groupNgramPaths : ℕ := 0
  uniqueGroupNgramPathsSet : Finset (List ℤ) := ∅

/-- The body of the sliding window. -/
def GroupCounts.add (groupSet : Finset ℤ) (c : GroupCounts) (ngram : List ℤ) : GroupCounts :=
  let c := { c with totalNgramPaths := c.totalNgramPaths + 1 }
  if ∀ expertId ∈ ngram, expertId ∈ groupSet then
    { c with
      groupNgramPaths := c.groupNgramPaths + 1
      uniqueGroupNgramPathsSet := insert ngram c.uniqueGroupNgramPathsSet }
  else c

/-- The body of the loop over the layers. -/
def layerStatistics {ρ : Type} (seqs : PyDict ρ (PyDict ℤ (List ℤ)))
    (expertGroups : PyDict ℤ (Finset ℤ)) (n : ℕ) (layerIdx : ℕ) : GroupNgramStatistics :=
  let groupSet := expertGroups.getD layerIdx ∅
  if groupSet = ∅ then {}
  else
    let c := (layerNgrams seqs n layerIdx).foldl (GroupCounts.add groupSet) {}
    { totalNgramPaths := c.totalNgramPaths
      groupNgramPaths := c.groupNgramPaths
      groupNgramRatio :=
        if c.totalNgramPaths > 0 then (c.groupNgramPaths : ℚ) / c.totalNgramPaths else 0
      uniqueGroupNgramPaths := c.uniqueGroupNgramPathsSet.card }

/-- `calculate_group_ngram_statistics`. -/
def calculateGroupNgramStatistics {ρ : Type} (requestSequences : PyDict ρ (PyDict ℤ (List ℤ)))
    (expertGroups : PyDict ℤ (Finset ℤ)) (n : ℕ) : Except Error (PyDict ℕ GroupNgramStatistics) :=
  let allLayers := layersOf requestSequences ++ expertGroups.keys
  fillRange (countUpTo allLayers).toNat fun layerIdx =>
    .ok (layerStatistics requestSequences expertGroups n layerIdx)

end ComputeExpertMetrics

/-! ## The statistics of `n_gram_statistics.py` -/

namespace NGramStatistics

/-- The statistics of a layer. -/
structure LayerNgramStatistics where
  totalNgramPaths : ℕ
  uniqueNgramPaths : ℕ
  totalTransitions : ℕ
  uniqueTransitions : ℕ
  selfLoopTransitions : ℕ
  selfLoopRatio : ℚ
  transitionMatrix : List (List ℕ)
  transitionCounts : PyDict (ℤ × ℤ) ℕ
deriving DecidableEq

/-- The accumulators of a layer. -/
structure TransitionCounts where
  totalNgramPaths : ℕ := 0
  uniqueNgramPathsSet : Finset (List ℤ) := ∅
  totalTransitions : ℕ := 0
  uniqueTransitionsSet : Finset (ℤ × ℤ) := ∅
  selfLoopTransitions : ℕ := 0
  transitionCounts : PyDict (ℤ × ℤ) ℕ := ∅

/-- The body of the sliding window. The transition goes from the first expert of the window to the last;
an empty window has neither. -/
def TransitionCounts.add (c : TransitionCounts) (ngram : List ℤ) : Except Error TransitionCounts :=
  match ngram.head?, ngram.getLast? with
  | some source, some target =>
    .ok {
      totalNgramPaths := c.totalNgramPaths + 1
      uniqueNgramPathsSet := insert ngram c.uniqueNgramPathsSet
      totalTransitions := c.totalTransitions + 1
      uniqueTransitionsSet := insert (source, target) c.uniqueTransitionsSet
      selfLoopTransitions := c.selfLoopTransitions + if ngram.toFinset.card = 1 then 1 else 0
      transitionCounts := c.transitionCounts.modify (source, target) 0 (· + 1) }
  | _, _ => .error .indexError

/-- The square matrix of the transition counts between the experts `0, …, numExperts - 1`. -/
def transitionMatrix (numExperts : ℕ) (counts : PyDict (ℤ × ℤ) ℕ) : List (List ℕ) :=
  (List.range numExperts).map fun source : ℕ =>
    (List.range numExperts).map fun target : ℕ => counts.getD ((source : ℤ), (target : ℤ)) 0

/-- The body of the loop over the layers. `np.zeros` raises on a negative dimension. -/
def layerStatistics {ρ : Type} (seqs : PyDict ρ (PyDict ℤ (List ℤ))) (n : ℕ) (numExperts : ℤ)
    (layerIdx : ℕ) : Except Error LayerNgramStatistics := do
  let c ← (layerNgrams seqs n layerIdx).foldlM TransitionCounts.add {}
  if numExperts < 0 then .error (.valueError "negative dimensions are not allowed")
  else
    .ok {
      totalNgramPaths := c.totalNgramPaths
      uniqueNgramPaths := c.uniqueNgramPathsSet.card
      totalTransitions := c.totalTransitions
      uniqueTransitions := c.uniqueTransitionsSet.card
      selfLoopTransitions := c.selfLoopTransitions
      selfLoopRatio :=
        if c.totalTransitions > 0 then (c.selfLoopTransitions : ℚ) / c.totalTransitions else 0
      transitionMatrix := transitionMatrix numExperts.toNat c.transitionCounts
      transitionCounts := c.transitionCounts }

/-- The experts that occur in the sequences. -/
def expertsOf {ρ : Type} (seqs : PyDict ρ (PyDict ℤ (List ℤ))) : List ℤ :=
  seqs.values.flatMap fun layers => layers.values.flatten

/-- `calculate_ngram_statistics`. -/
def calculateNgramStatistics {ρ : Type} (requestSequences : PyDict ρ (PyDict ℤ (List ℤ))) (n : ℕ) :
    Except Error (PyDict ℕ LayerNgramStatistics) :=
  let numExperts := countUpTo (expertsOf requestSequences)
  fillRange (countUpTo (layersOf requestSequences)).toNat
    (layerStatistics requestSequences n numExperts)

end NGramStatistics

/-! ## What the accumulators hold -/

namespace ComputeExpertMetrics

theorem totalNgramPaths_foldl (groupSet : Finset ℤ) (c : GroupCounts) (ngrams : List (List ℤ)) :
    (ngrams.foldl (GroupCounts.add groupSet) c).totalNgramPaths =
      c.totalNgramPaths + ngrams.length := by
  induction ngrams generalizing c with
  | nil => rfl
  | cons ngram ngrams ih =>
    have hstep : (c.add groupSet ngram).totalNgramPaths = c.totalNgramPaths + 1 := by
      unfold GroupCounts.add
      split <;> rfl
    rw [List.foldl_cons, ih, hstep, List.length_cons]
    omega

/-- The group windows are the windows that lie in the group. -/
theorem groupNgramPaths_foldl (groupSet : Finset ℤ) (ngrams : List (List ℤ)) (c : GroupCounts) :
    (ngrams.foldl (GroupCounts.add groupSet) c).groupNgramPaths =
        c.groupNgramPaths + ngrams.countP (∀ e ∈ ·, e ∈ groupSet) ∧
      (ngrams.foldl (GroupCounts.add groupSet) c).uniqueGroupNgramPathsSet =
        c.uniqueGroupNgramPathsSet ∪ (ngrams.filter (∀ e ∈ ·, e ∈ groupSet)).toFinset := by
  induction ngrams generalizing c with
  | nil => simp
  | cons ngram ngrams ih =>
    obtain ⟨hcount, hset⟩ := ih (c.add groupSet ngram)
    rw [List.foldl_cons, hcount, hset, List.countP_cons, List.filter_cons, GroupCounts.add]
    by_cases hin : ∀ e ∈ ngram, e ∈ groupSet
    · simp only [if_pos hin, decide_eq_true hin, if_true, List.toFinset_cons, Finset.union_insert,
        Finset.insert_union, and_true]
      omega
    · simp only [if_neg hin, decide_eq_false hin, Bool.false_eq_true, if_false, add_zero, and_self]

/-- The statistics `g` are those of the windows, for a group. -/
structure GroupNgramStatistics.Of (groupSet : Finset ℤ) (ngrams : List (List ℤ))
    (g : GroupNgramStatistics) : Prop where
  totalNgramPaths : g.totalNgramPaths = ngrams.length
  groupNgramPaths : g.groupNgramPaths = ngrams.countP (∀ e ∈ ·, e ∈ groupSet)
  uniqueGroupNgramPaths :
    g.uniqueGroupNgramPaths = (ngrams.filter (∀ e ∈ ·, e ∈ groupSet)).toFinset.card

section Layer

variable {ρ : Type} (seqs : PyDict ρ (PyDict ℤ (List ℤ))) (expertGroups : PyDict ℤ (Finset ℤ)) (n : ℕ)

/-- `calculate_group_ngram_statistics` returns, and reports every layer that has a group. -/
theorem exists_calculateGroupNgramStatistics :
    ∃ stats, calculateGroupNgramStatistics seqs expertGroups n = .ok stats ∧
      ∀ layer : ℕ, expertGroups.getD layer ∅ ≠ ∅ →
        stats.get? layer = some (layerStatistics seqs expertGroups n layer) := by
  obtain ⟨stats, hstats⟩ := exists_fillRange
    (n := (countUpTo (layersOf seqs ++ expertGroups.keys)).toNat)
    (f := fun l => .ok (layerStatistics seqs expertGroups n l)) fun i _ => ⟨_, rfl⟩
  refine ⟨stats, hstats, fun layer hgroup => ?_⟩
  obtain ⟨groupSet, hget⟩ := PyDict.exists_get?_of_getD_ne hgroup
  have hkey : (layer : ℤ) ∈ layersOf seqs ++ expertGroups.keys :=
    List.mem_append_right _ (PyDict.get?_isSome_iff.mp (Option.isSome_of_eq_some hget))
  have hlt := lt_countUpTo hkey
  obtain ⟨g, hg, hget⟩ := get?_fillRange hstats (i := layer) (by omega)
  cases hg
  exact hget

variable {expertGroups} {layer : ℕ} (hgroup : expertGroups.getD layer ∅ ≠ ∅)

include hgroup

theorem layerStatistics_of :
    (layerStatistics seqs expertGroups n layer).Of (expertGroups.getD layer ∅)
      (layerNgrams seqs n layer) := by
  have hpaths := groupNgramPaths_foldl (expertGroups.getD layer ∅) (layerNgrams seqs n layer) {}
  refine ⟨?_, ?_, ?_⟩ <;> rw [layerStatistics, if_neg hgroup]
  · simp [totalNgramPaths_foldl]
  · simp [hpaths.1]
  · simp [hpaths.2]

theorem layerStatistics_ratio :
    (layerStatistics seqs expertGroups n layer).groupNgramRatio =
      if (layerStatistics seqs expertGroups n layer).totalNgramPaths > 0 then
        ((layerStatistics seqs expertGroups n layer).groupNgramPaths : ℚ) /
          (layerStatistics seqs expertGroups n layer).totalNgramPaths
      else 0 := by
  rw [layerStatistics, if_neg hgroup]

end Layer

/-- `calculate_group_ngram_statistics` counts all windows of a layer that has a group. -/
theorem calculateGroupNgramStatistics_layer {ρ : Type} (seqs : PyDict ρ (PyDict ℤ (List ℤ)))
    (expertGroups : PyDict ℤ (Finset ℤ)) (n : ℕ) :
    ∃ stats, calculateGroupNgramStatistics seqs expertGroups n = .ok stats ∧
      ∀ layer : ℕ, expertGroups.getD layer ∅ ≠ ∅ →
        ∃ g, stats.get? layer = some g ∧
          g.Of (expertGroups.getD layer ∅) (layerNgrams seqs n layer) := by
  obtain ⟨stats, hstats, hget⟩ := exists_calculateGroupNgramStatistics seqs expertGroups n
  exact ⟨stats, hstats, fun layer hgroup => ⟨_, hget layer hgroup, layerStatistics_of seqs n hgroup⟩⟩

end ComputeExpertMetrics

namespace NGramStatistics

/-- From the first expert of a window to the last. -/
def transition (ngram : List ℤ) : ℤ × ℤ := (ngram.head?.getD 0, ngram.getLast?.getD 0)

/-- The accumulators `c'` are `c` with the windows added. -/
structure TransitionCounts.Adds (ngrams : List (List ℤ)) (c c' : TransitionCounts) : Prop where
  totalNgramPaths : c'.totalNgramPaths = c.totalNgramPaths + ngrams.length
  uniqueNgramPathsSet : c'.uniqueNgramPathsSet = c.uniqueNgramPathsSet ∪ ngrams.toFinset
  totalTransitions : c'.totalTransitions = c.totalTransitions + ngrams.length
  uniqueTransitionsSet :
    c'.uniqueTransitionsSet = c.uniqueTransitionsSet ∪ (ngrams.map transition).toFinset
  selfLoopTransitions :
    c'.selfLoopTransitions = c.selfLoopTransitions + ngrams.countP (·.toFinset.card = 1)
  transitionCounts : ∀ t,
    c'.transitionCounts.getD t 0 = c.transitionCounts.getD t 0 + (ngrams.map transition).count t

/-- A window that is not empty is counted. -/
theorem TransitionCounts.add_eq_ok {ngram : List ℤ} (h : ngram ≠ []) (c : TransitionCounts) :
    ∃ c', c.add ngram = .ok c' ∧ c.Adds [ngram] c' := by
  obtain ⟨source, hsource⟩ := Option.isSome_iff_exists.mp (by simpa using h : ngram.head?.isSome)
  obtain ⟨target, htarget⟩ := Option.isSome_iff_exists.mp (by simpa using h : ngram.getLast?.isSome)
  have htransition : transition ngram = (source, target) := by
    rw [transition, hsource, htarget]
    rfl
  refine ⟨_, by simp only [TransitionCounts.add, hsource, htarget]; rfl, rfl, ?_, rfl, ?_, ?_, ?_⟩
  · rw [List.toFinset_cons, Finset.union_insert, List.toFinset_nil, Finset.union_empty]
  · rw [List.map_singleton, htransition, List.toFinset_cons, Finset.union_insert, List.toFinset_nil,
      Finset.union_empty]
  · simp [List.countP_singleton]
  · intro t
    rw [PyDict.getD_modify, List.map_singleton, htransition, List.count_singleton]
    by_cases ht : t = (source, target)
    · simp [ht]
    · simp [ht, Ne.symm ht]

theorem TransitionCounts.Adds.trans {xs ys : List (List ℤ)} {c₁ c₂ c₃ : TransitionCounts}
    (h : c₁.Adds xs c₂) (h' : c₂.Adds ys c₃) : c₁.Adds (xs ++ ys) c₃ where
  totalNgramPaths := by
    rw [h'.totalNgramPaths, h.totalNgramPaths, List.length_append]
    omega
  uniqueNgramPathsSet := by
    rw [h'.uniqueNgramPathsSet, h.uniqueNgramPathsSet, List.toFinset_append, Finset.union_assoc]
  totalTransitions := by
    rw [h'.totalTransitions, h.totalTransitions, List.length_append]
    omega
  uniqueTransitionsSet := by
    rw [h'.uniqueTransitionsSet, h.uniqueTransitionsSet, List.map_append, List.toFinset_append,
      Finset.union_assoc]
  selfLoopTransitions := by
    rw [h'.selfLoopTransitions, h.selfLoopTransitions, List.countP_append]
    omega
  transitionCounts := by
    intro t
    rw [h'.transitionCounts, h.transitionCounts, List.map_append, List.count_append]
    omega

/-- Windows that are not empty are all counted. -/
theorem foldlM_add {ngrams : List (List ℤ)} (h : ∀ ngram ∈ ngrams, ngram ≠ [])
    (c : TransitionCounts) :
    ∃ c', ngrams.foldlM TransitionCounts.add c = .ok c' ∧ c.Adds ngrams c' := by
  induction ngrams generalizing c with
  | nil => exact ⟨c, rfl, rfl, by simp, rfl, by simp, rfl, fun t => rfl⟩
  | cons ngram ngrams ih =>
    obtain ⟨c₁, hadd, hc₁⟩ := c.add_eq_ok (h ngram (by simp))
    obtain ⟨c', hfold, hc'⟩ := ih (fun w hw => h w (by simp [hw])) c₁
    exact ⟨c', by rw [List.foldlM_cons, hadd]; exact hfold, hc₁.trans hc'⟩

/-- The statistics `s` are those of the windows, with a matrix for `numExperts` experts. -/
structure LayerNgramStatistics.Of (ngrams : List (List ℤ)) (numExperts : ℕ)
    (s : LayerNgramStatistics) : Prop where
  totalNgramPaths : s.totalNgramPaths = ngrams.length
  uniqueNgramPaths : s.uniqueNgramPaths = ngrams.toFinset.card
  totalTransitions : s.totalTransitions = ngrams.length
  uniqueTransitions : s.uniqueTransitions = (ngrams.map transition).toFinset.card
  selfLoopTransitions : s.selfLoopTransitions = ngrams.countP (·.toFinset.card = 1)
  transitionMatrix : s.transitionMatrix = (List.range numExperts).map fun source : ℕ =>
    (List.range numExperts).map fun target : ℕ =>
      (ngrams.map transition).count ((source : ℤ), (target : ℤ))

theorem ne_nil_of_mem_layerNgrams {ρ : Type} {seqs : PyDict ρ (PyDict ℤ (List ℤ))} {n : ℕ}
    (hn : 1 ≤ n) {layerIdx : ℤ} : ∀ ngram ∈ layerNgrams seqs n layerIdx, ngram ≠ [] := by
  intro ngram hmem
  obtain ⟨layerData, -, hw⟩ := List.mem_flatMap.mp hmem
  have hlen := (mem_of_mem_ngrams hw).1
  exact List.ne_nil_of_length_pos (by omega)

/-- For `n ≥ 1` the statistics of a layer exist, and count all of its windows. -/
theorem exists_layerStatistics {ρ : Type} {seqs : PyDict ρ (PyDict ℤ (List ℤ))} {n : ℕ}
    (hn : 1 ≤ n) {numExperts : ℤ} (hexperts : 0 ≤ numExperts) (layerIdx : ℕ) :
    ∃ s, layerStatistics seqs n numExperts layerIdx = .ok s ∧
      s.Of (layerNgrams seqs n layerIdx) numExperts.toNat := by
  obtain ⟨c, hfold, hc⟩ := foldlM_add (ne_nil_of_mem_layerNgrams hn) {}
  refine ⟨_, by rw [layerStatistics, hfold]; simp only [bind, Except.bind, not_lt.mpr hexperts]; rfl,
    ?_, ?_, ?_, ?_, ?_, ?_⟩
  · simpa using hc.totalNgramPaths
  · simp only [hc.uniqueNgramPathsSet, Finset.empty_union]
  · simpa using hc.totalTransitions
  · simp only [hc.uniqueTransitionsSet, Finset.empty_union]
  · simpa using hc.selfLoopTransitions
  · simp only [NGramStatistics.transitionMatrix, hc.transitionCounts, PyDict.getD_empty, zero_add]

/-- `calculate_ngram_statistics` returns unless the matrix has a negative dimension, and then reports
every layer up to the largest one. -/
theorem calculateNgramStatistics_layer {ρ : Type} {seqs : PyDict ρ (PyDict ℤ (List ℤ))} {n : ℕ}
    (hn : 1 ≤ n) (hexperts : 0 ≤ countUpTo (expertsOf seqs)) :
    ∃ stats, calculateNgramStatistics seqs n = .ok stats ∧
      ∀ layer : ℕ, (layer : ℤ) < countUpTo (layersOf seqs) → ∃ s, stats.get? layer = some s ∧
        s.Of (layerNgrams seqs n layer) (countUpTo (expertsOf seqs)).toNat := by
  obtain ⟨stats, hstats⟩ := exists_fillRange (n := (countUpTo (layersOf seqs)).toNat)
    (f := layerStatistics seqs n (countUpTo (expertsOf seqs)))
    fun i _ => (exists_layerStatistics hn hexperts i).imp fun _ h => h.1
  refine ⟨stats, hstats, fun layer hlayer => ?_⟩
  obtain ⟨s, hs, hget⟩ := get?_fillRange hstats (i := layer) (by omega)
  obtain ⟨s', hs', hof⟩ := @exists_layerStatistics ρ seqs n hn _ hexperts layer
  rw [hs] at hs'
  cases hs'
  exact ⟨s, hget, hof⟩

end NGramStatistics

/-! ## Lines of the pipeline -/

section Pipeline

variable {aligned : List Record} {lines : List OutputRecord}

/-- Where an expert of a sequence comes from: it is the first expert of a layer of a line. -/
theorem mem_seq_extract (hlines : aligned.mapM convertRecordToOutputFormat = .ok lines) {r : ℕ} {l e : ℤ}
    (he : e ∈ (NGramStatistics.extractExpertSequencesByRequest lines).seq r l) :
    ∃ line ∈ lines, ∃ (layer : ℕ) (d : LayerData), l = layer ∧
      line.layers.get? (toString layer) = some d ∧ e ∈ d.expertIds ∧ 0 ≤ e := by
  rw [seq_extractExpertSequences] at he
  obtain ⟨line, hline, he⟩ := List.mem_flatMap.mp he
  have hline := (List.mem_filter.mp hline).1
  obtain ⟨record, -, hrecord⟩ := mem_of_mapM_eq_ok hlines line hline
  obtain ⟨p, hp, hhead⟩ := List.mem_filterMap.mp he
  split at hhead
  · rename_i hkey
    obtain ⟨layer, hlayer, -, hvalid⟩ := convertRecord_mem_entries hrecord hp
    have hmem := List.mem_of_head? hhead
    rw [hlayer, pyInt_toString, Option.some.injEq] at hkey
    refine ⟨line, hline, layer, p.2, hkey.symm, ?_, hmem, ?_⟩
    · rw [PyDict.get?_eq_some_iff, ← hlayer]
      exact hp
    · exact (isValidExpert_iff.mp (hvalid e hmem)).1
  · cases hhead

/-- A sequence that is stored in a map. -/
theorem seq_eq_of_mem {seqs : Sequences} {layerData : PyDict ℤ (List ℤ)}
    (h : layerData ∈ seqs.values) :
    ∃ r, ∀ l, layerData.getD l [] = seqs.seq r l := by
  obtain ⟨r, hr⟩ := PyDict.mem_values_iff.mp h
  exact ⟨r, fun l => by rw [Sequences.seq, PyDict.getD_eq_of_get?_eq_some hr]⟩

/-- A layer of a line of some request is a layer of the sequences. -/
theorem mem_layersOf (hids : ∀ line ∈ lines, line.requestId.isSome)
    (hlines : aligned.mapM convertRecordToOutputFormat = .ok lines) {layer : ℕ}
    (h : ∃ line ∈ lines, toString layer ∈ line.layers.keys) :
    (layer : ℤ) ∈ layersOf (NGramStatistics.extractExpertSequencesByRequest lines) := by
  obtain ⟨line, hline, hkey⟩ := h
  obtain ⟨p, hp, hpkey⟩ := List.mem_map.mp hkey
  obtain ⟨record, -, hrecord⟩ := mem_of_mapM_eq_ok hlines line hline
  obtain ⟨-, -, hne, -⟩ := convertRecord_mem_entries hrecord hp
  obtain ⟨r, hr⟩ := Option.isSome_iff_exists.mp (hids line hline)
  obtain ⟨e, es, hes⟩ := List.exists_cons_of_ne_nil hne
  have hmem : e ∈ (NGramStatistics.extractExpertSequencesByRequest lines).seq r layer := by
    rw [seq_extractExpertSequences]
    refine List.mem_flatMap.mpr ⟨line, List.mem_filter.mpr ⟨hline, by simpa using hr⟩, ?_⟩
    refine List.mem_filterMap.mpr ⟨p, hp, ?_⟩
    rw [hpkey, pyInt_toString, if_pos rfl, hes, List.head?_cons]
  have hseq := List.ne_nil_of_mem hmem
  have hlayers : (NGramStatistics.extractExpertSequencesByRequest lines).getD r ∅ ≠ ∅ := by
    intro h
    rw [Sequences.seq, h] at hseq
    exact hseq rfl
  obtain ⟨layerData, hget⟩ := PyDict.exists_get?_of_getD_ne hlayers
  rw [Sequences.seq, PyDict.getD_eq_of_get?_eq_some hget] at hseq
  obtain ⟨seq, hseq⟩ := PyDict.exists_get?_of_getD_ne hseq
  refine List.mem_flatMap.mpr ⟨layerData, PyDict.mem_values_iff.mpr ⟨r, hget⟩, ?_⟩
  exact PyDict.get?_isSome_iff.mp (by rw [hseq]; rfl)

/-- The experts of a window are experts of lines on its layer. -/
theorem mem_layerNgrams_extract (hlines : aligned.mapM convertRecordToOutputFormat = .ok lines) {n : ℕ}
    {layer : ℕ} {ngram : List ℤ} {e : ℤ} (he : e ∈ ngram)
    (hmem : ngram ∈ layerNgrams (NGramStatistics.extractExpertSequencesByRequest lines) n layer) :
    ∃ line ∈ lines, ∃ d, line.layers.get? (toString layer) = some d ∧ e ∈ d.expertIds := by
  obtain ⟨layerData, hdata, hw⟩ := List.mem_flatMap.mp hmem
  obtain ⟨r, hr⟩ := seq_eq_of_mem hdata
  have heseq := (mem_of_mem_ngrams hw).2 e he
  rw [hr] at heseq
  obtain ⟨line, hline, layer', d, hcast, hd, hed, -⟩ := mem_seq_extract hlines heseq
  rw [Nat.cast_inj] at hcast
  subst hcast
  exact ⟨line, hline, d, hd, hed⟩

theorem expertsOf_nonneg (hlines : aligned.mapM convertRecordToOutputFormat = .ok lines) :
    ∀ e ∈ NGramStatistics.expertsOf (NGramStatistics.extractExpertSequencesByRequest lines), 0 ≤ e := by
  intro e he
  obtain ⟨layerData, hdata, he⟩ := List.mem_flatMap.mp he
  obtain ⟨seq, hseq, he⟩ := List.mem_flatten.mp he
  obtain ⟨r, hr⟩ := seq_eq_of_mem hdata
  obtain ⟨l, hl⟩ := PyDict.mem_values_iff.mp hseq
  have hgetD : (layerData.getD l []) = seq := PyDict.getD_eq_of_get?_eq_some hl
  rw [← hgetD, hr] at he
  obtain ⟨-, -, -, -, -, -, -, hnonneg⟩ := mem_seq_extract hlines he
  exact hnonneg

end Pipeline

/-- **The two n-gram implementations agree on pipeline data.** On the lines written for aligned records,
the two extractions return the same sequences. On every layer of these lines with a non-empty group,
both statistics have an entry with the same total; if the group has every expert of the layer, the group
windows are all windows, and the unique group windows all unique windows. -/
theorem ngram_statistics_agree {inferenceResults : List InferenceResult} {expertData : ExpertData}
    {tokenizer : Option Tokenizer} {numRequests : Option ℤ} {aligned : List Record}
    {lines : List OutputRecord}
    (halign : alignTokensWithExperts inferenceResults expertData tokenizer numRequests = .ok aligned)
    (hlines : aligned.mapM convertRecordToOutputFormat = .ok lines) :
    ∃ seqs, ComputeExpertMetrics.extractExpertSequencesByRequest lines = .ok seqs ∧
      NGramStatistics.extractExpertSequencesByRequest lines = seqs ∧
      ∀ n, 1 ≤ n → ∀ (expertGroups : PyDict ℤ (Finset ℤ)) (layer : ℕ),
        (∃ line ∈ lines, toString layer ∈ line.layers.keys) → expertGroups.getD layer ∅ ≠ ∅ →
        ∃ groupStats stats g s,
          ComputeExpertMetrics.calculateGroupNgramStatistics seqs expertGroups n = .ok groupStats ∧
          NGramStatistics.calculateNgramStatistics seqs n = .ok stats ∧
          groupStats.get? layer = some g ∧ stats.get? layer = some s ∧
          g.totalNgramPaths = s.totalNgramPaths ∧
          ((∀ line ∈ lines, ∀ d, line.layers.get? (toString layer) = some d →
              ∀ e ∈ d.expertIds, e ∈ expertGroups.getD layer ∅) →
            g.groupNgramPaths = s.totalNgramPaths ∧
              g.uniqueGroupNgramPaths = s.uniqueNgramPaths) := by
  have hids : ∀ line ∈ lines, line.requestId.isSome := by
    intro line hline
    obtain ⟨record, hrecord, hconv⟩ := mem_of_mapM_eq_ok hlines line hline
    rw [(convertRecord_entries hconv).2.2.1]
    exact (alignTokensWithExperts_isSome halign record hrecord).1
  refine ⟨_, extractExpertSequences_eq hids, rfl, fun n hn expertGroups layer hocc hgroup => ?_⟩
  have hlayer := mem_layersOf hids hlines hocc
  set seqs := NGramStatistics.extractExpertSequencesByRequest lines with hseqs
  obtain ⟨groupStats, hgs, hgroups⟩ :=
    ComputeExpertMetrics.calculateGroupNgramStatistics_layer seqs expertGroups n
  obtain ⟨stats, hs, hlayers⟩ := NGramStatistics.calculateNgramStatistics_layer hn
    (countUpTo_nonneg (expertsOf_nonneg hlines))
  obtain ⟨g, hgetg, hg⟩ := hgroups layer hgroup
  obtain ⟨s, hgets, hof⟩ := hlayers layer (lt_countUpTo hlayer)
  refine ⟨groupStats, stats, g, s, hgs, hs, hgetg, hgets, ?_, fun hall => ?_⟩
  · rw [hg.totalNgramPaths, hof.totalNgramPaths]
  · -- the experts of a window are first experts of lines, hence in the group
    have hin : ∀ ngram ∈ layerNgrams seqs n layer,
        decide (∀ e ∈ ngram, e ∈ expertGroups.getD layer ∅) = true := by
      intro ngram hmem
      refine decide_eq_true fun e he => ?_
      obtain ⟨line, hline, d, hd, hed⟩ := mem_layerNgrams_extract hlines he hmem
      exact hall line hline d hd e hed
    constructor
    · rw [hg.groupNgramPaths, hof.totalNgramPaths, List.countP_eq_length.mpr hin]
    · rw [hg.uniqueGroupNgramPaths, hof.uniqueNgramPaths, List.filter_eq_self.mpr hin]

/-- One request of three tokens and the records of its passes, on a model of one layer. -/
def sampleAligned : Except Error (List Record) :=
  let pass (e : ℤ) : Record :=
    { topkIdsOfLayer := [[some [some e]]], topkWeightsOfLayer := [[some [some 1]]] }
  alignTokensWithExperts [{ requestId := 0, tokenIds := [11, 12, 13] }]
    { records := [pass 4, pass 4, pass 9] } none none

theorem ngram_statistics_agree_sample :
    ∃ aligned lines seqs groupStats stats g s, sampleAligned = .ok aligned ∧
      aligned.mapM convertRecordToOutputFormat = .ok lines ∧
      ComputeExpertMetrics.extractExpertSequencesByRequest lines = .ok seqs ∧
      ComputeExpertMetrics.calculateGroupNgramStatistics seqs ⟨[(0, {4, 9})], by decide⟩ 2 =
        .ok groupStats ∧
      NGramStatistics.calculateNgramStatistics seqs 2 = .ok stats ∧
      groupStats.get? 0 = some g ∧ stats.get? 0 = some s ∧
      g.groupNgramPaths = s.totalNgramPaths := by
  obtain ⟨aligned, halign⟩ : ∃ aligned, sampleAligned = .ok aligned := ⟨_, rfl⟩
  obtain ⟨lines, hlines⟩ : ∃ lines, aligned.mapM convertRecordToOutputFormat = .ok lines := by
    cases halign
    exact ⟨_, rfl⟩
  obtain ⟨seqs, hseqs, -, hstats⟩ := ngram_statistics_agree halign hlines
  have hocc : ∃ line ∈ lines, toString 0 ∈ line.layers.keys := by
    cases halign
    cases hlines
    decide
  obtain ⟨groupStats, stats, g, s, hgs, hs, hg, hs', -, hall⟩ :=
    hstats 2 (by decide) ⟨[(0, {4, 9})], by decide⟩ 0 hocc (by decide)
  refine ⟨aligned, lines, seqs, groupStats, stats, g, s, halign, hlines, hseqs, hgs, hs, hg, hs',
    (hall ?_).1⟩
  cases halign
  cases hlines
  decide

end MoeSpecialization.Metrics
