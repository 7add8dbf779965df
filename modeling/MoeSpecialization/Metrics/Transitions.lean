import MoeSpecialization.Metrics.RunLengths
import Mathlib.Algebra.BigOperators.Ring.Finset

/-!
# Marginals of the transition matrix

Reference: `calculate_ngram_statistics` in `metric/utils/n_gram_statistics.py`.

An entry of the matrix is the number of windows with that first and that last expert. The first experts
of the windows of a sequence are its elements without the last `n - 1`, the last experts its elements
without the first `n - 1`, so that the sums over rows and columns count positions of the sequences
(`transition_matrix_marginals`).
-/

namespace MoeSpecialization.Metrics

open Py Windows NGramStatistics

/-! ## Sums over the matrix -/

/-- `m[i, j]`, and `0` outside the matrix. -/
def entry (m : List (List ℕ)) (i j : ℕ) : ℕ := (m.getD i []).getD j 0

/-- `m[i, :].sum()`. -/
def rowSum (m : List (List ℕ)) (i : ℕ) : ℕ := ∑ j ∈ Finset.range m.length, entry m i j

/-- `m[:, j].sum()`. -/
def columnSum (m : List (List ℕ)) (j : ℕ) : ℕ := ∑ i ∈ Finset.range m.length, entry m i j

/-- `m.sum()`. -/
def matrixSum (m : List (List ℕ)) : ℕ := ∑ i ∈ Finset.range m.length, rowSum m i

/-- `np.trace(m)`. -/
def trace (m : List (List ℕ)) : ℕ := ∑ i ∈ Finset.range m.length, entry m i i

/-- `np.count_nonzero(m)`. -/
def countNonzero (m : List (List ℕ)) : ℕ :=
  ((Finset.range m.length ×ˢ Finset.range m.length).filter fun p => entry m p.1 p.2 ≠ 0).card

/-! ## Double counting -/

/-- Counts by classes sum up to a count if every element is in as many classes as it counts. -/
theorem sum_countP_eq {α ι : Type*} (s : Finset ι) {q : ι → α → Bool} {p : α → Bool} {xs : List α}
    (h : ∀ x ∈ xs, ∑ i ∈ s, (if q i x then 1 else 0) = if p x then 1 else 0) :
    ∑ i ∈ s, xs.countP (q i) = xs.countP p := by
  induction xs with
  | nil => simp
  | cons x xs ih =>
    simp only [List.countP_cons, Finset.sum_add_distrib]
    rw [ih fun y hy => h y (by simp [hy]), h x (by simp)]

/-! ## First and last experts -/

section Windows

variable {n : ℕ} (hn : 1 ≤ n)

include hn

theorem map_head_windows (seq : List ℤ) :
    (windows n seq).map (·.head?.getD 0) = seq.take (seq.length + 1 - n) := by
  induction seq with
  | nil => rw [windows, List.take_nil, List.map_nil]
  | cons x xs ih =>
    rw [windows, List.length_cons]
    split
    · rw [List.map_cons, ih, show xs.length + 1 + 1 - n = xs.length + 1 - n + 1 by omega,
        List.take_succ_cons]
      obtain ⟨k, rfl⟩ : ∃ k, n = k + 1 := ⟨n - 1, by omega⟩
      rfl
    · rw [show xs.length + 1 + 1 - n = 0 by omega]
      rfl

theorem map_getLast_windows (seq : List ℤ) :
    (windows n seq).map (·.getLast?.getD 0) = seq.drop (n - 1) := by
  induction seq with
  | nil => rw [windows, List.drop_nil, List.map_nil]
  | cons x xs ih =>
    rw [windows]
    split
    · rename_i hlen
      have hlt : n - 1 < (x :: xs).length := by
        rw [List.length_cons]
        omega
      have hlast : ((x :: xs).take n).getLast? = some (x :: xs)[n - 1] := by
        rw [List.getLast?_eq_getElem?, List.length_take, Nat.min_eq_left (by simpa using hlen),
          List.getElem?_take_of_lt (by omega), List.getElem?_eq_getElem hlt]
      rw [List.map_cons, ih, hlast, Option.getD_some, List.drop_eq_getElem_cons hlt,
        List.drop_succ_cons]
    · rw [List.drop_eq_nil_of_le (by simp; omega)]
      rfl

/-- The windows of a layer that start with an expert, by positions. -/
theorem countP_fst_layerNgrams {ρ : Type} (seqs : PyDict ρ (PyDict ℤ (List ℤ))) (l e : ℤ) :
    ((layerNgrams seqs n l).map transition).countP (·.1 = e) =
      ((layerSeqs seqs l).map fun seq => (seq.take (seq.length + 1 - n)).count e).sum := by
  rw [layerNgrams, layerSeqs]
  induction seqs.values with
  | nil => rfl
  | cons layerData values ih =>
    rw [List.flatMap_cons, List.map_append, List.countP_append, ih, List.map_cons, List.map_cons,
      List.sum_cons, ngrams_eq_windows hn, ← map_head_windows hn, List.count, List.countP_map,
      List.countP_map]
    rfl

/-- The windows of a layer that end with an expert, by positions. -/
theorem countP_snd_layerNgrams {ρ : Type} (seqs : PyDict ρ (PyDict ℤ (List ℤ))) (l e : ℤ) :
    ((layerNgrams seqs n l).map transition).countP (·.2 = e) =
      ((layerSeqs seqs l).map fun seq => (seq.drop (n - 1)).count e).sum := by
  rw [layerNgrams, layerSeqs]
  induction seqs.values with
  | nil => rfl
  | cons layerData values ih =>
    rw [List.flatMap_cons, List.map_append, List.countP_append, ih, List.map_cons, List.map_cons,
      List.sum_cons, ngrams_eq_windows hn, ← map_getLast_windows hn, List.count, List.countP_map,
      List.countP_map]
    rfl

end Windows

/-- What leaves an expert and what enters it differ by the ends of the sequence. -/
theorem count_take_add_getLast (seq : List ℤ) (e : ℤ) :
    (seq.take (seq.length + 1 - 2)).count e +
        (if 2 ≤ seq.length ∧ seq.getLast? = some e then 1 else 0) =
      (seq.drop (2 - 1)).count e + if 2 ≤ seq.length ∧ seq.head? = some e then 1 else 0 := by
  rw [show seq.length + 1 - 2 = seq.length - 1 by omega, ← List.dropLast_eq_take]
  by_cases hlen : 2 ≤ seq.length
  · obtain ⟨x, xs, rfl⟩ := List.exists_cons_of_ne_nil (List.ne_nil_of_length_pos (by omega : 0 < seq.length))
    have hlast := List.dropLast_append_getLast (List.cons_ne_nil x xs)
    have hcount := congrArg (List.count e) hlast
    rw [List.count_append, List.count_singleton, List.count_cons] at hcount
    rw [List.getLast?_eq_some_getLast (List.cons_ne_nil x xs), List.head?_cons]
    simp only [hlen, true_and, Option.some.injEq, beq_iff_eq] at hcount ⊢
    exact hcount
  · have hshort : seq.dropLast = [] ∧ seq.drop (2 - 1) = [] := by
      refine ⟨List.eq_nil_of_length_eq_zero ?_, List.drop_eq_nil_of_le (by omega)⟩
      rw [List.length_dropLast]
      omega
    rw [hshort.1, hshort.2]
    simp [hlen]

theorem sum_count_take_add_getLast (xs : List (List ℤ)) (e : ℤ) :
    (xs.map fun seq => (seq.take (seq.length + 1 - 2)).count e).sum +
        xs.countP (fun seq => 2 ≤ seq.length ∧ seq.getLast? = some e) =
      (xs.map fun seq => (seq.drop (2 - 1)).count e).sum +
        xs.countP fun seq => 2 ≤ seq.length ∧ seq.head? = some e := by
  induction xs with
  | nil => rfl
  | cons seq xs ih =>
    have hseq := count_take_add_getLast seq e
    simp only [List.map_cons, List.sum_cons, List.countP_cons, decide_eq_true_eq]
    omega

/-! ## The matrix of a layer -/

section Matrix

variable {ts : List (ℤ × ℤ)} {numExperts : ℕ} {m : List (List ℕ)}

/-- An entry is the count of its transition, because all experts are below the dimension. -/
theorem entry_eq_count (hm : m = (List.range numExperts).map fun source : ℕ =>
      (List.range numExperts).map fun target : ℕ => ts.count ((source : ℤ), (target : ℤ)))
    (hts : ∀ t ∈ ts, t.1 < numExperts ∧ t.2 < numExperts) (i j : ℕ) :
    entry m i j = ts.countP (· = ((i : ℤ), (j : ℤ))) := by
  have hcount : ts.countP (· = ((i : ℤ), (j : ℤ))) = ts.count ((i : ℤ), (j : ℤ)) :=
    List.countP_congr fun t _ => by simp
  rw [hcount, entry, hm, List.getD_eq_getElem?_getD, List.getD_eq_getElem?_getD, List.getElem?_map]
  by_cases hi : i < numExperts
  · by_cases hj : j < numExperts
    · simp [hi, hj]
    · have hzero : ts.count ((i : ℤ), (j : ℤ)) = 0 := by
        refine List.count_eq_zero.mpr fun hmem => hj ?_
        simpa using (hts _ hmem).2
      simp [hi, hj, hzero]
  · have hzero : ts.count ((i : ℤ), (j : ℤ)) = 0 := by
      refine List.count_eq_zero.mpr fun hmem => hi ?_
      simpa using (hts _ hmem).1
    simp [hi, hzero]

theorem exists_cast {x : ℤ} (h : 0 ≤ x ∧ x < numExperts) : ∃ k < numExperts, x = (k : ℤ) :=
  ⟨x.toNat, by omega, by omega⟩

variable (hlen : m.length = numExperts)
  (hentry : ∀ i j : ℕ, entry m i j = ts.countP (· = ((i : ℤ), (j : ℤ))))
  (hts : ∀ t ∈ ts, (0 ≤ t.1 ∧ t.1 < numExperts) ∧ 0 ≤ t.2 ∧ t.2 < numExperts)

include hlen hentry hts

theorem rowSum_eq (i : ℕ) : rowSum m i = ts.countP (·.1 = (i : ℤ)) := by
  rw [rowSum, hlen]
  simp only [hentry]
  refine sum_countP_eq _ fun t ht => ?_
  obtain ⟨k, hk, hkt⟩ := exists_cast (hts t ht).2
  by_cases hi : t.1 = i
  · simp [Prod.ext_iff, hi, hkt, hk]
  · simp [Prod.ext_iff, hi]

theorem columnSum_eq (j : ℕ) : columnSum m j = ts.countP (·.2 = (j : ℤ)) := by
  rw [columnSum, hlen]
  simp only [hentry]
  refine sum_countP_eq _ fun t ht => ?_
  obtain ⟨k, hk, hkt⟩ := exists_cast (hts t ht).1
  by_cases hj : t.2 = j
  · simp [Prod.ext_iff, hj, hkt, hk]
  · simp [Prod.ext_iff, hj]

theorem matrixSum_eq : matrixSum m = ts.length := by
  rw [matrixSum, hlen, ← List.countP_true]
  simp only [rowSum_eq hlen hentry hts]
  refine sum_countP_eq _ fun t ht => ?_
  obtain ⟨k, hk, hkt⟩ := exists_cast (hts t ht).1
  simp [hkt, hk]

theorem trace_eq : trace m = ts.countP fun t => t.1 = t.2 := by
  rw [trace, hlen]
  simp only [hentry]
  refine sum_countP_eq _ fun t ht => ?_
  obtain ⟨k, hk, hkt⟩ := exists_cast (hts t ht).1
  by_cases heq : t.1 = t.2
  · simp [Prod.ext_iff, ← heq, hkt, hk]
  · have : ∀ i : ℕ, ¬(t.1 = i ∧ t.2 = i) := fun i h => heq (h.1.trans h.2.symm)
    simp [Prod.ext_iff, this, heq]

theorem countNonzero_eq : countNonzero m = ts.toFinset.card := by
  rw [countNonzero, hlen]
  refine Finset.card_nbij (fun p => ((p.1 : ℤ), (p.2 : ℤ))) ?_ ?_ ?_
  · intro p hp
    have hp := (Finset.mem_filter.mp hp).2
    rw [hentry] at hp
    simpa [List.countP_eq_zero] using hp
  · intro p _ q _ heq
    simpa [Prod.ext_iff] using heq
  · intro t ht
    have hmem : t ∈ ts := by simpa using ht
    obtain ⟨i, hi, hit⟩ := exists_cast (hts t hmem).1
    obtain ⟨j, hj, hjt⟩ := exists_cast (hts t hmem).2
    have htij : t = ((i : ℤ), (j : ℤ)) := Prod.ext hit hjt
    refine ⟨(i, j), ?_, htij.symm⟩
    rw [Finset.mem_coe, Finset.mem_filter, Finset.mem_product, Finset.mem_range, Finset.mem_range,
      hentry]
    refine ⟨⟨hi, hj⟩, fun hzero => ?_⟩
    exact List.countP_eq_zero.mp hzero t hmem (by simpa using htij)

end Matrix

/-! ## Self loops -/

/-- The ends of a window of equal experts are equal. -/
theorem transition_eq_of_card {w : List ℤ} (h : w.toFinset.card = 1) :
    (transition w).1 = (transition w).2 := by
  obtain ⟨x, hx⟩ := Finset.card_eq_one.mp h
  have heq : ∀ e ∈ w, e = x := by
    intro e he
    rw [← List.mem_toFinset, hx, Finset.mem_singleton] at he
    exact he
  have hne : w ≠ [] := by
    rintro rfl
    simp at h
  simp [transition, List.head?_eq_some_head hne, List.getLast?_eq_some_getLast hne,
    heq _ (List.head_mem hne), heq _ (List.getLast_mem hne)]

/-- A window of at most two experts with equal ends is a window of equal experts. -/
theorem card_of_transition_eq {w : List ℤ} (hne : w ≠ []) (hlen : w.length ≤ 2)
    (h : (transition w).1 = (transition w).2) : w.toFinset.card = 1 := by
  match w, hne, hlen, h with
  | [x], _, _, _ => rfl
  | [x, y], _, _, h =>
    have hxy : x = y := h
    simp [hxy]

theorem mem_expertsOf {ρ : Type} {seqs : PyDict ρ (PyDict ℤ (List ℤ))}
    {layerData : PyDict ℤ (List ℤ)} (hdata : layerData ∈ seqs.values) {l e : ℤ}
    (he : e ∈ layerData.getD l []) : e ∈ expertsOf seqs := by
  obtain ⟨seq, hseq⟩ := PyDict.exists_get?_of_getD_ne (List.ne_nil_of_mem he)
  rw [PyDict.getD_eq_of_get?_eq_some hseq] at he
  exact List.mem_flatMap.mpr ⟨layerData, hdata,
    List.mem_flatten.mpr ⟨seq, PyDict.mem_values_iff.mpr ⟨l, hseq⟩, he⟩⟩

/-- The experts of the transitions of a layer. -/
theorem mem_transitions {ρ : Type} {seqs : PyDict ρ (PyDict ℤ (List ℤ))} {n : ℕ} (hn : 1 ≤ n) {l : ℤ}
    {t : ℤ × ℤ} (ht : t ∈ (layerNgrams seqs n l).map transition) :
    t.1 ∈ expertsOf seqs ∧ t.2 ∈ expertsOf seqs := by
  obtain ⟨w, hw, rfl⟩ := List.mem_map.mp ht
  have hne := ne_nil_of_mem_layerNgrams hn w hw
  obtain ⟨layerData, hdata, hw⟩ := List.mem_flatMap.mp hw
  have hexpert : ∀ e ∈ w, e ∈ expertsOf seqs :=
    fun e he => mem_expertsOf hdata ((mem_of_mem_ngrams hw).2 e he)
  rw [transition, List.head?_eq_some_head hne, List.getLast?_eq_some_getLast hne]
  exact ⟨hexpert _ (List.head_mem hne), hexpert _ (List.getLast_mem hne)⟩

/-- The experts of a transition are indices of the matrix. -/
theorem transitions_inBounds {ρ : Type} {seqs : PyDict ρ (PyDict ℤ (List ℤ))}
    (hnonneg : ∀ e ∈ expertsOf seqs, 0 ≤ e) {n : ℕ} (hn : 1 ≤ n) {layer : ℤ} :
    ∀ t ∈ (layerNgrams seqs n layer).map transition,
      (0 ≤ t.1 ∧ t.1 < (countUpTo (expertsOf seqs)).toNat) ∧
        0 ≤ t.2 ∧ t.2 < (countUpTo (expertsOf seqs)).toNat := by
  intro t ht
  obtain ⟨hsource, htarget⟩ := mem_transitions hn ht
  have h₁ := hnonneg _ hsource
  have h₂ := hnonneg _ htarget
  have h₃ := lt_countUpTo hsource
  have h₄ := lt_countUpTo htarget
  omega

/-- The transition of a window is a function of the window. -/
theorem card_transitions_le (ngrams : List (List ℤ)) :
    (ngrams.map transition).toFinset.card ≤ ngrams.toFinset.card := by
  have himage : (ngrams.map transition).toFinset = ngrams.toFinset.image transition := by
    ext t
    simp
  rw [himage]
  exact Finset.card_image_le

/-- A window of equal experts ends with the expert that it starts with. -/
theorem countP_selfLoop_le (ngrams : List (List ℤ)) : ngrams.countP (·.toFinset.card = 1) ≤
    (ngrams.map transition).countP (fun t => t.1 = t.2) := by
  rw [List.countP_map]
  apply List.countP_mono_left
  intro w _ hw
  simpa using transition_eq_of_card (by simpa using hw)

/-- Windows of at most two experts have nothing in between. -/
theorem countP_selfLoop_eq {ρ : Type} {seqs : PyDict ρ (PyDict ℤ (List ℤ))} {n : ℕ} (hn : 1 ≤ n)
    (hn2 : n ≤ 2) (layer : ℤ) :
    ((layerNgrams seqs n layer).map transition).countP (fun t => t.1 = t.2) =
      (layerNgrams seqs n layer).countP (·.toFinset.card = 1) := by
  rw [List.countP_map]
  apply List.countP_congr
  intro w hw
  have hne := ne_nil_of_mem_layerNgrams hn w hw
  obtain ⟨layerData, -, hwin⟩ := List.mem_flatMap.mp hw
  have hwlen := (mem_of_mem_ngrams hwin).1
  simp only [Function.comp_apply, decide_eq_true_eq]
  exact ⟨card_of_transition_eq hne (by omega), transition_eq_of_card⟩

/-- **Marginals of the transition matrix.** For non-negative experts and `n ≥ 1` the statistics are
reported for every layer. The entries of the matrix sum up to the transitions, a row to the positions up
to `length - n` that hold the expert, a column to the positions from `n - 1` on. For `n = 2` row and
column differ by the sequences that start and those that end with the expert. The non-zero entries are
the unique transitions, and the trace is at least the self loops, with equality for `n ≤ 2`. -/
theorem transition_matrix_marginals {ρ : Type} {seqs : PyDict ρ (PyDict ℤ (List ℤ))}
    (hnonneg : ∀ e ∈ expertsOf seqs, 0 ≤ e) {n : ℕ} (hn : 1 ≤ n) :
    ∃ stats, calculateNgramStatistics seqs n = .ok stats ∧
      ∀ layer : ℕ, (layer : ℤ) < countUpTo (layersOf seqs) → ∃ s, stats.get? layer = some s ∧
        let m := s.transitionMatrix
        (matrixSum m = s.totalTransitions ∧ s.totalTransitions = s.totalNgramPaths) ∧
        (∀ e : ℕ, rowSum m e =
          ((layerSeqs seqs layer).map fun seq => (seq.take (seq.length + 1 - n)).count (e : ℤ)).sum) ∧
        (∀ e : ℕ, columnSum m e =
          ((layerSeqs seqs layer).map fun seq => (seq.drop (n - 1)).count (e : ℤ)).sum) ∧
        (n = 2 → ∀ e : ℕ, (rowSum m e : ℤ) - columnSum m e =
          ((layerSeqs seqs layer).countP fun seq => 2 ≤ seq.length ∧ seq.head? = some (e : ℤ)) -
          ((layerSeqs seqs layer).countP fun seq => 2 ≤ seq.length ∧ seq.getLast? = some (e : ℤ))) ∧
        (countNonzero m = s.uniqueTransitions ∧ s.uniqueTransitions ≤ s.uniqueNgramPaths ∧
          s.uniqueNgramPaths ≤ s.totalNgramPaths) ∧
        s.selfLoopTransitions ≤ trace m ∧ (n ≤ 2 → trace m = s.selfLoopTransitions) := by
  obtain ⟨stats, hstats, hlayers⟩ := calculateNgramStatistics_layer hn (countUpTo_nonneg hnonneg)
  refine ⟨stats, hstats, fun layer hlayer => ?_⟩
  obtain ⟨s, hget, hof⟩ := hlayers layer hlayer
  refine ⟨s, hget, ?_⟩
  set ngrams := layerNgrams seqs n layer with hngrams
  set numExperts := (countUpTo (expertsOf seqs)).toNat with hnum
  have hts : ∀ t ∈ ngrams.map transition,
      (0 ≤ t.1 ∧ t.1 < numExperts) ∧ 0 ≤ t.2 ∧ t.2 < numExperts := transitions_inBounds hnonneg hn
  have hlen : s.transitionMatrix.length = numExperts := by
    rw [hof.transitionMatrix, List.length_map, List.length_range]
  have hentry := entry_eq_count hof.transitionMatrix fun t ht => ⟨(hts t ht).1.2, (hts t ht).2.2⟩
  have hrow (e : ℕ) := (rowSum_eq hlen hentry hts e).trans (countP_fst_layerNgrams hn seqs layer e)
  have hcolumn (e : ℕ) :=
    (columnSum_eq hlen hentry hts e).trans (countP_snd_layerNgrams hn seqs layer e)
  have htrace := trace_eq hlen hentry hts
  refine ⟨⟨?_, ?_⟩, hrow, hcolumn, ?_, ⟨?_, ?_, ?_⟩, ?_, ?_⟩
  · rw [matrixSum_eq hlen hentry hts, List.length_map, hof.totalTransitions]
  · rw [hof.totalTransitions, hof.totalNgramPaths]
  · rintro rfl e
    have := sum_count_take_add_getLast (layerSeqs seqs layer) e
    rw [hrow, hcolumn]
    omega
  · rw [countNonzero_eq hlen hentry hts, hof.uniqueTransitions]
  · rw [hof.uniqueTransitions, hof.uniqueNgramPaths]
    exact card_transitions_le ngrams
  · rw [hof.uniqueNgramPaths, hof.totalNgramPaths]
    exact List.toFinset_card_le _
  · rw [htrace, hof.selfLoopTransitions]
    exact countP_selfLoop_le ngrams
  · intro hn2
    rw [htrace, hof.selfLoopTransitions]
    exact countP_selfLoop_eq hn hn2 layer

theorem transition_matrix_marginals_sample :
    ∃ stats s, calculateNgramStatistics sampleSequences 2 = .ok stats ∧ stats.get? 0 = some s ∧
      rowSum s.transitionMatrix 4 = 4 ∧ trace s.transitionMatrix = s.selfLoopTransitions := by
  obtain ⟨stats, hstats, hlayers⟩ :=
    @transition_matrix_marginals ℤ sampleSequences (by decide) 2 (by decide)
  obtain ⟨s, hget, -, hrow, -, -, -, -, htrace⟩ := hlayers 0 (by decide)
  exact ⟨stats, s, hstats, hget, (hrow 4).trans (by decide), htrace le_rfl⟩

end MoeSpecialization.Metrics
