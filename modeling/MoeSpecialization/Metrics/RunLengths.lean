import MoeSpecialization.Common.Windows
import MoeSpecialization.Metrics.NGram

/-!
# n-gram counts from run lengths

Reference: `calculate_group_ngram_statistics` in `metric/utils/compute_expert_metrics.py` and
`calculate_ngram_statistics` in `metric/utils/n_gram_statistics.py`.

Both test the windows of a sequence one by one. A window lies in the group if and only if it lies in a
block of experts of the group, and it is a self loop if and only if it lies in a block of equal experts,
so that the counts are sums over these blocks (`ngram_counts_eq_block_sums`).
-/

namespace MoeSpecialization.Metrics

open Py Windows

variable {ρ : Type}

/-- The sequences of a layer, request by request. -/
def layerSeqs (seqs : PyDict ρ (PyDict ℤ (List ℤ))) (layerIdx : ℤ) : List (List ℤ) :=
  seqs.values.map (·.getD layerIdx [])

/-- The maximal blocks of consecutive experts of the group. -/
def groupBlocks (group : Finset ℤ) (seq : List ℤ) : List (List ℤ) :=
  (seq.splitBy fun a b => decide (a ∈ group) == decide (b ∈ group)).filter (·.all (· ∈ group))

/-- The maximal blocks of equal experts. -/
def equalBlocks (seq : List ℤ) : List (List ℤ) := seq.splitBy (· == ·)

/-- The sum of `max(0, length - n + 1)` over the blocks. -/
def windowsIn (n : ℕ) (blocks : List (List ℤ)) : ℕ := (blocks.map fun b => b.length + 1 - n).sum

theorem windowsIn_antitone (blocks : List (List ℤ)) {n m : ℕ} (h : n ≤ m) :
    windowsIn m blocks ≤ windowsIn n blocks :=
  sum_map_length_antitone blocks h

theorem windowsIn_succ (n : ℕ) (blocks : List (List ℤ)) :
    windowsIn n blocks = windowsIn (n + 1) blocks + blocks.countP (n ≤ ·.length) :=
  sum_map_length_succ blocks

/-! ## Windows of a sequence -/

/-- The loop over the start positions visits the windows. -/
theorem ngrams_eq_windows {n : ℕ} (hn : 1 ≤ n) (seq : List ℤ) : ngrams n seq = windows n seq := by
  induction seq with
  | nil => rw [ngrams, if_pos (by simp; omega), windows]
  | cons x xs ih =>
    rw [windows, ngrams, List.length_cons]
    by_cases hlen : n ≤ xs.length + 1
    · rw [if_neg (by omega), if_pos hlen, List.range_succ_eq_map, List.map_cons, List.map_map, ← ih,
        ngrams]
      congr 1
      split
      · rw [show xs.length + 1 - n = 0 by omega]
        rfl
      · rw [show xs.length + 1 - n = xs.length - n + 1 by omega]
        rfl
    · rw [if_pos (by omega), if_neg hlen]

section Counts

variable {n : ℕ} (hn : 1 ≤ n)

include hn

theorem length_ngrams (seq : List ℤ) : (ngrams n seq).length = seq.length + 1 - n := by
  rw [ngrams_eq_windows hn, length_windows hn]

theorem countP_group_ngrams (group : Finset ℤ) (seq : List ℤ) :
    (ngrams n seq).countP (∀ e ∈ ·, e ∈ group) = windowsIn n (groupBlocks group seq) := by
  rw [ngrams_eq_windows hn]
  refine countP_windows_eq_sum_blocks hn (fun a b h => by simpa using h) (fun w _ => ?_) seq
  simp only [decide_eq_true_eq]
  refine ⟨fun h => ⟨?_, h⟩, fun h => h.2⟩
  -- all elements are in the group, hence any two of them are related
  refine (List.pairwise_iff_forall_sublist.mpr fun {a b} hab => ?_).isChain
  simp [h a (hab.subset (by simp)), h b (hab.subset (by simp))]

omit hn in
theorem card_toFinset_eq_one_iff {w : List ℤ} (hw : w ≠ []) :
    w.toFinset.card = 1 ↔ w.IsChain fun a b => (a == b) = true := by
  rw [Finset.card_eq_one]
  constructor
  · rintro ⟨x, hx⟩
    have heq : ∀ e ∈ w, e = x := by
      intro e he
      rw [← List.mem_toFinset, hx, Finset.mem_singleton] at he
      exact he
    refine (List.pairwise_iff_forall_sublist.mpr fun {a b} hab => ?_).isChain
    simp [heq a (hab.subset (by simp)), heq b (hab.subset (by simp))]
  · intro hchain
    obtain ⟨x, xs, rfl⟩ := List.exists_cons_of_ne_nil hw
    refine ⟨x, Finset.eq_singleton_iff_unique_mem.mpr ⟨by simp, fun e he => ?_⟩⟩
    rw [List.mem_toFinset] at he
    have := forall_of_isChain (r := (· == ·)) (p := (· == x)) (fun a b h => by simp_all) hchain he
      (by simp : x ∈ x :: xs)
    simpa using this

theorem countP_equal_ngrams (seq : List ℤ) :
    (ngrams n seq).countP (·.toFinset.card = 1) = windowsIn n (equalBlocks seq) := by
  have hall : (seq.splitBy (· == ·)).filter (·.all fun _ => true) = seq.splitBy (· == ·) := by simp
  rw [ngrams_eq_windows hn, windowsIn, equalBlocks, ← hall]
  refine countP_windows_eq_sum_blocks hn (fun _ _ _ => rfl) (fun w hw => ?_) seq
  simp [card_toFinset_eq_one_iff hw]

/-! ## Windows of a layer -/

theorem length_layerNgrams (seqs : PyDict ρ (PyDict ℤ (List ℤ))) (l : ℤ) :
    (layerNgrams seqs n l).length = windowsIn n (layerSeqs seqs l) := by
  rw [layerNgrams, List.length_flatMap, windowsIn, layerSeqs, List.map_map]
  simp only [length_ngrams hn]
  rfl

omit hn in
/-- A count over the windows of a layer, from the count over the windows of a sequence. -/
theorem countP_layerNgrams {good : List ℤ → Bool} {blocks : List ℤ → List (List ℤ)}
    (h : ∀ seq, (ngrams n seq).countP good = windowsIn n (blocks seq))
    (seqs : PyDict ρ (PyDict ℤ (List ℤ))) (l : ℤ) :
    (layerNgrams seqs n l).countP good = windowsIn n ((layerSeqs seqs l).flatMap blocks) := by
  rw [layerNgrams, layerSeqs]
  induction seqs.values with
  | nil => rfl
  | cons layerData values ih =>
    rw [List.flatMap_cons, List.countP_append, ih, h, List.map_cons, List.flatMap_cons, windowsIn,
      windowsIn, windowsIn, List.map_append, List.sum_append]

end Counts

/-! ## The counts of both statistics -/

section Statistics

variable {seqs : PyDict ρ (PyDict ℤ (List ℤ))} {layer : ℕ}

theorem countUpTo_experts_nonneg {xs : List ℤ} (h : xs ≠ [] → ∃ e ∈ xs, -1 ≤ e) :
    0 ≤ countUpTo xs := by
  by_cases hnil : xs = []
  · subst hnil
    exact le_rfl
  · obtain ⟨e, he, hle⟩ := h hnil
    have := lt_countUpTo he
    omega

/-- **n-gram counts are determined by run lengths.** On a layer of the sequences, the totals of both
statistics are sums over the sequences, the group windows are a sum over the blocks in the group, the
self loops a sum over the blocks of equal experts. The group windows and the self loops do not increase
with `n`, and the step from `n` to `n + 1` loses one window in every block of length at least `n`. The
second statistics are reported unless all experts are below `-1`. -/
theorem ngram_counts_eq_block_sums (hlayer : (layer : ℤ) ∈ layersOf seqs) :
    (∀ expertGroups : PyDict ℤ (Finset ℤ), expertGroups.getD layer ∅ ≠ ∅ →
      ∃ g : ℕ → ComputeExpertMetrics.GroupNgramStatistics,
        let blocks := (layerSeqs seqs layer).flatMap (groupBlocks (expertGroups.getD layer ∅))
        (∀ n, 1 ≤ n → ∃ stats,
          ComputeExpertMetrics.calculateGroupNgramStatistics seqs expertGroups n = .ok stats ∧
          stats.get? layer = some (g n) ∧
          (g n).totalNgramPaths = windowsIn n (layerSeqs seqs layer) ∧
          (g n).groupNgramPaths = windowsIn n blocks) ∧
        (∀ n m, 1 ≤ n → n ≤ m → (g m).groupNgramPaths ≤ (g n).groupNgramPaths) ∧
        ∀ n, 1 ≤ n → ((g n).groupNgramPaths : ℤ) - (g (n + 1)).groupNgramPaths =
          blocks.countP (n ≤ ·.length)) ∧
    ((NGramStatistics.expertsOf seqs ≠ [] → ∃ e ∈ NGramStatistics.expertsOf seqs, -1 ≤ e) →
      ∃ s : ℕ → NGramStatistics.LayerNgramStatistics,
        (∀ n, 1 ≤ n → ∃ stats, NGramStatistics.calculateNgramStatistics seqs n = .ok stats ∧
          stats.get? layer = some (s n) ∧
          (s n).totalNgramPaths = windowsIn n (layerSeqs seqs layer) ∧
          (s n).selfLoopTransitions = windowsIn n ((layerSeqs seqs layer).flatMap equalBlocks)) ∧
        ∀ n m, 1 ≤ n → n ≤ m → (s m).selfLoopTransitions ≤ (s n).selfLoopTransitions) := by
  constructor
  · intro expertGroups hgroup
    choose stats hcalc hgroups using
      ComputeExpertMetrics.calculateGroupNgramStatistics_layer seqs expertGroups
    choose g hget hof using fun n => hgroups n layer hgroup
    have hpaths : ∀ n, 1 ≤ n → (g n).groupNgramPaths =
        windowsIn n ((layerSeqs seqs layer).flatMap (groupBlocks (expertGroups.getD layer ∅))) := by
      intro n hn
      rw [(hof n).groupNgramPaths, countP_layerNgrams (countP_group_ngrams hn _)]
    refine ⟨g, fun n hn => ⟨stats n, hcalc n, hget n, ?_, hpaths n hn⟩, ?_, ?_⟩
    · rw [(hof n).totalNgramPaths, length_layerNgrams hn]
    · intro n m hn hnm
      rw [hpaths n hn, hpaths m (by omega)]
      exact windowsIn_antitone _ hnm
    · intro n hn
      rw [hpaths n hn, hpaths (n + 1) (by omega), windowsIn_succ n]
      push_cast
      omega
  · intro hexperts
    have hnonneg := countUpTo_experts_nonneg hexperts
    have hstats (n : ℕ) (hn : 1 ≤ n) := NGramStatistics.calculateNgramStatistics_layer hn hnonneg
    choose! stats hcalc hof using hstats
    have hlayers (n : ℕ) (hn : 1 ≤ n) := hof n hn layer (lt_countUpTo hlayer)
    have : Nonempty NGramStatistics.LayerNgramStatistics := ⟨⟨0, 0, 0, 0, 0, 0, [], ∅⟩⟩
    choose! s hget hof using hlayers
    have hself : ∀ n, 1 ≤ n → (s n).selfLoopTransitions =
        windowsIn n ((layerSeqs seqs layer).flatMap equalBlocks) := by
      intro n hn
      rw [(hof n hn).selfLoopTransitions, countP_layerNgrams (countP_equal_ngrams hn)]
    refine ⟨s, fun n hn => ⟨stats n, hcalc n hn, hget n hn, ?_, hself n hn⟩, fun n m hn hnm => ?_⟩
    · rw [(hof n hn).totalNgramPaths, length_layerNgrams hn]
    · rw [hself n hn, hself m (by omega)]
      exact windowsIn_antitone _ hnm

end Statistics

/-- One request whose experts on layer 0 are `4, 4, 4, 9, 4, 4`. -/
def sampleSequences : PyDict ℤ (PyDict ℤ (List ℤ)) :=
  ⟨[(0, ⟨[(0, [4, 4, 4, 9, 4, 4])], by decide⟩)], by decide⟩

theorem ngram_counts_eq_block_sums_sample :
    (∃ stats g, ComputeExpertMetrics.calculateGroupNgramStatistics sampleSequences
        ⟨[(0, {4})], by decide⟩ 2 = .ok stats ∧ stats.get? 0 = some g ∧ g.groupNgramPaths = 3) ∧
      ∃ stats s, NGramStatistics.calculateNgramStatistics sampleSequences 2 = .ok stats ∧
        stats.get? 0 = some s ∧ s.selfLoopTransitions = 3 := by
  obtain ⟨hgroup, hself⟩ := @ngram_counts_eq_block_sums ℤ sampleSequences 0 (by decide)
  obtain ⟨g, hg, -, -⟩ := hgroup ⟨[(0, {4})], by decide⟩ (by decide)
  obtain ⟨s, hs, -⟩ := hself fun _ => ⟨4, by decide, by decide⟩
  obtain ⟨stats, hcalc, hget, -, hpaths⟩ := hg 2 (by decide)
  obtain ⟨stats', hcalc', hget', -, hpaths'⟩ := hs 2 (by decide)
  exact ⟨⟨stats, g 2, hcalc, hget, hpaths.trans (by decide)⟩, stats', s 2, hcalc', hget',
    hpaths'.trans (by decide)⟩

/-- Experts below `-1` leave no matrix to allocate, and no statistics are reported. -/
theorem ngram_counts_negative_experts :
    let seqs : PyDict ℤ (PyDict ℤ (List ℤ)) := ⟨[(0, ⟨[(0, [-2])], by decide⟩)], by decide⟩
    (0 : ℤ) ∈ layersOf seqs ∧ ¬∃ stats s, NGramStatistics.calculateNgramStatistics seqs 1 = .ok stats ∧
      stats.get? 0 = some s ∧ s.totalNgramPaths = windowsIn 1 (layerSeqs seqs 0) := by
  refine ⟨by decide, ?_⟩
  rintro ⟨stats, s, hcalc, -, -⟩
  cases hcalc

end MoeSpecialization.Metrics
