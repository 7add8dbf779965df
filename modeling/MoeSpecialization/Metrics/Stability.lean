import MoeSpecialization.Metrics.Rss
import MoeSpecialization.Common.PyInt
import Mathlib.Algebra.Order.Field.Basic
import Mathlib.Tactic.Linarith

/-!
# The stability rate under perturbation

Reference: `perturbation_keeps_topk` and `calculate_rss_by_layer` in `metric/utils/rss.py`.

Every trial perturbs the selected logits and the strongest excluded one by independent draws from
`[-eps, eps]`. The draws come from one generator that all trials of all layers share; it is modelled by
the value of its `n`-th draw, and the statements advance the position in it. Whatever the draws are, a
margin above `2 * eps` survives every trial and a margin of at most `-2 * eps` none, so the rate lies
between the two fractions of such entries.
-/

namespace MoeSpecialization.Metrics

open Py Postprocess

/-! ## The code -/

/-- A random generator: the value of its `n`-th draw, for the bounds that the draw is made with. -/
abbrev Generator := ℕ → ℚ → ℚ → ℚ

/-- `rng.uniform(low, high)`. -/
def Generator.uniform (rng : Generator) (low high : ℚ) : PyM ℕ ℚ := do
  let n ← get
  set (n + 1)
  pure (rng n low high)

/-- `perturbation_keeps_topk`. The minimum of an empty array raises. -/
def perturbationKeepsTopk (selectedLogits : List ℚ) (nextLogit perturbationScale : ℚ)
    (rng : Generator) : PyM ℕ Bool := do
  let selectedNoise ← selectedLogits.mapM fun _ => rng.uniform (-perturbationScale) perturbationScale
  let nextNoise ← rng.uniform (-perturbationScale) perturbationScale
  let perturbedSelected := List.zipWith (· + ·) selectedLogits selectedNoise
  let perturbedNext := nextLogit + nextNoise
  match perturbedSelected.min? with
  | none => throw (.valueError "zero-size array to reduction operation minimum which has no identity")
  | some weakest => pure (decide (perturbedNext < weakest))

/-- An entry of `layer_entries`. -/
structure LayerEntry extends LayerMargin where
  selectedLogits : List ℚ

/-- The entry of a layer that `extract_layer_margin` accepts. -/
def layerEntry (layerData : LayerData) : Option LayerEntry :=
  (extractLayerMargin layerData).map fun marginEntry =>
    { marginEntry with selectedLogits := layerData.logits.getD [] }

/-- `layer_entries`. -/
abbrev LayerEntries := PyDict String (List LayerEntry)

/-- The body of the loop over the layers of a record. -/
def addLayerEntry (layerEntries : LayerEntries) : String × LayerData → LayerEntries
  | (layerId, layerData) =>
    match layerEntry layerData with
    | none => layerEntries
    | some entry => layerEntries.modify layerId [] (· ++ [entry])

/-- The loop over the records. -/
def collectLayerEntries (records : List OutputRecord) : LayerEntries :=
  records.foldl (fun layerEntries record => record.layers.entries.foldl addLayerEntry layerEntries) ∅

/-- A key with its sort key. -/
def intKey (key : String) : Except Error (ℤ × String) :=
  match pyInt key with
  | none => .error (.valueError "invalid literal for int() with base 10")
  | some layerIdx => .ok (layerIdx, key)

/-- `sorted(keys, key=int)`. -/
def sortedByInt (keys : List String) : Except Error (List String) := do
  let keyed ← keys.mapM intKey
  .ok ((keyed.insertionSort fun a b => a.1 ≤ b.1).map Prod.snd)

/-- `np.mean`. -/
def mean (xs : List ℚ) : ℚ := xs.sum / xs.length

/-- An entry of `layer_results`. -/
structure LayerResult where
  rssMargin : ℚ
  marginStd : ℚ
  weakestSelectedLogitMean : ℚ
  strongestUnselectedLogitMean : ℚ
  numSamples : ℕ
  topk : ℕ
  perturbationScale : ℚ
  stabilityRate : Option ℚ

/-- What `calculate_rss_by_layer` returns. -/
structure RssResults where
  metricName : String := "routing_stiffness_score"
  definition : String := "mean_logit_margin_with_optional_perturbation_stability"
  numRecords : ℕ
  numSimulations : ℤ
  perturbationScale : ℚ
  layerResults : PyDict String LayerResult
  globalRssMargin : ℚ
  globalMarginStd : ℚ
  globalStabilityRate : Option ℚ

/-- The variables of the loop over the layers. -/
structure RssLoop where
  layerResults : PyDict String LayerResult := ∅
  allMargins : List ℚ := []
  allStabilityRates : List ℚ := []

section Code

/- `np.std`, which has no rational value in general. -/
variable (std : List ℚ → ℚ)
variable (rng : Generator) (numSimulations : ℤ) (perturbationScale : ℚ)

/-- The trials of one entry, on `stable_count` and `total_trials`. -/
def runTrials (counts : ℕ × ℕ) (entry : LayerEntry) : PyM ℕ (ℕ × ℕ) :=
  (List.range numSimulations.toNat).foldlM (fun counts _ => do
    let keeps ← perturbationKeepsTopk entry.selectedLogits entry.strongestUnselectedLogit
      perturbationScale rng
    pure (if keeps then counts.1 + 1 else counts.1, counts.2 + 1)) counts

/-- The stability rate of the entries of a layer. -/
def stabilityRate (entries : List LayerEntry) : PyM ℕ (Option ℚ) :=
  if 0 < perturbationScale ∧ 0 < numSimulations then do
    let counts ← entries.foldlM (runTrials rng numSimulations perturbationScale) (0, 0)
    pure (if 0 < counts.2 then some ((counts.1 : ℚ) / counts.2) else none)
  else pure none

/-- The body of the loop over the layers. -/
def addLayerResult (layerEntries : LayerEntries) (s : RssLoop) (layerId : String) :
    PyM ℕ RssLoop := do
  let entries := layerEntries.getD layerId []
  let margins := entries.map (·.margin)
  let weakestLogits := entries.map (·.weakestSelectedLogit)
  let nextLogits := entries.map (·.strongestUnselectedLogit)
  let rate ← stabilityRate rng numSimulations perturbationScale entries
  pure {
    layerResults := s.layerResults.set layerId {
      rssMargin := mean margins
      marginStd := std margins
      weakestSelectedLogitMean := mean weakestLogits
      strongestUnselectedLogitMean := mean nextLogits
      numSamples := entries.length
      topk := entries.head?.elim 0 (·.topk)
      perturbationScale
      stabilityRate := rate }
    allMargins := s.allMargins ++ margins
    allStabilityRates := s.allStabilityRates ++ rate.toList }

/-- The dictionary that is returned after the loop over the layers. -/
def RssLoop.results (s : RssLoop) (numRecords : ℕ) : RssResults where
  numRecords
  numSimulations
  perturbationScale
  layerResults := s.layerResults
  globalRssMargin := if s.allMargins = [] then 0 else mean s.allMargins
  globalMarginStd := if s.allMargins = [] then 0 else std s.allMargins
  globalStabilityRate :=
    if s.allStabilityRates = [] then none else some (mean s.allStabilityRates)

/-- `calculate_rss_by_layer`, on the position in its generator. -/
def calculateRssByLayer (records : List OutputRecord) : PyM ℕ RssResults := do
  let layerEntries := collectLayerEntries records
  let layerIds ← PyM.ofExcept (sortedByInt layerEntries.keys)
  let s ← layerIds.foldlM (addLayerResult std rng numSimulations perturbationScale layerEntries) {}
  pure (s.results std numSimulations perturbationScale records.length)

end Code

/-! ## One trial -/

/-- The documented range of a uniform draw. -/
def Generator.Bounded (rng : Generator) : Prop :=
  ∀ n low high, low ≤ high → low ≤ rng n low high ∧ rng n low high ≤ high

/-- Noise within `±eps` moves a minimum by at most `eps`. -/
theorem min?_zipWith_add {xs noise : List ℚ} {eps a : ℚ} (hlen : noise.length = xs.length)
    (hbound : ∀ x ∈ noise, -eps ≤ x ∧ x ≤ eps) (hmin : xs.min? = some a) :
    ∃ m, (List.zipWith (· + ·) xs noise).min? = some m ∧ a - eps ≤ m ∧ m ≤ a + eps := by
  obtain ⟨hmem, hle⟩ := List.min?_eq_some_iff.mp hmin
  obtain ⟨i, hi, hget⟩ := List.getElem_of_mem hmem
  have hne : List.zipWith (· + ·) xs noise ≠ [] := by
    refine List.ne_nil_of_length_pos ?_
    rw [List.length_zipWith, hlen]
    omega
  obtain ⟨m, hm⟩ : ∃ m, (List.zipWith (· + ·) xs noise).min? = some m :=
    Option.isSome_iff_exists.mp (List.isSome_min?_iff.mpr hne)
  obtain ⟨hmmem, hmle⟩ := List.min?_eq_some_iff.mp hm
  refine ⟨m, hm, ?_, ?_⟩
  · -- the perturbed minimum is some element with its own noise
    obtain ⟨j, hj, hjget⟩ := List.getElem_of_mem hmmem
    rw [List.length_zipWith] at hj
    rw [List.getElem_zipWith] at hjget
    have hselected := hle _ (List.getElem_mem (show j < xs.length by omega))
    have hdraw := (hbound _ (List.getElem_mem (show j < noise.length by omega))).1
    linarith
  · have hnoise := (hbound _ (List.getElem_mem (show i < noise.length by omega))).2
    have hperturbed := hmle (xs[i] + noise[i]) (by
      refine List.mem_iff_getElem.mpr ⟨i, by rw [List.length_zipWith]; omega, ?_⟩
      rw [List.getElem_zipWith])
    rw [hget] at hperturbed
    linarith

section Trials

variable {rng : Generator} (hrng : rng.Bounded) {perturbationScale : ℚ} (hscale : 0 < perturbationScale)

include hrng hscale

theorem run_uniform (n : ℕ) :
    ∃ x n', (rng.uniform (-perturbationScale) perturbationScale).run n = .ok x n' ∧
      (-perturbationScale ≤ x ∧ x ≤ perturbationScale) :=
  ⟨_, n + 1, rfl, hrng n _ _ (by linarith)⟩

/-- A trial keeps a margin above `2 * eps` and breaks a margin of at most `-2 * eps`. -/
theorem run_perturbationKeepsTopk {selectedLogits : List ℚ} {weakest : ℚ}
    (hmin : selectedLogits.min? = some weakest) (nextLogit : ℚ) (n : ℕ) :
    ∃ keeps n', (perturbationKeepsTopk selectedLogits nextLogit perturbationScale rng).run n =
        .ok keeps n' ∧
      (2 * perturbationScale < weakest - nextLogit → keeps = true) ∧
      (weakest - nextLogit ≤ -(2 * perturbationScale) → keeps = false) := by
  obtain ⟨noise, n₁, hnoise, hlen, hbound⟩ := PyM.run_mapM_of (l := selectedLogits)
    (fun _ => run_uniform hrng hscale) n
  obtain ⟨nextNoise, n₂, hnext, hlow, hhigh⟩ := run_uniform hrng hscale n₁
  obtain ⟨m, hm, hlower, hupper⟩ := min?_zipWith_add hlen hbound hmin
  refine ⟨decide (nextLogit + nextNoise < m), n₂, ?_, ?_, ?_⟩
  · rw [perturbationKeepsTopk, PyM.run_bind_of_ok hnoise, PyM.run_bind_of_ok hnext]
    simp only [hm]
    rfl
  · intro hgap
    exact decide_eq_true (by linarith)
  · intro hgap
    exact decide_eq_false (by linarith)

/-- The margin of an entry is that of its selected logits. -/
def LayerEntry.Sound (entry : LayerEntry) : Prop :=
  entry.selectedLogits.min? = some entry.weakestSelectedLogit ∧
    entry.margin = entry.weakestSelectedLogit - entry.strongestUnselectedLogit

/-- The trials of an entry: all are kept above `2 * eps`, none at `-2 * eps` or below. -/
theorem run_runTrials {entry : LayerEntry} (hentry : entry.Sound) (numSimulations : ℤ)
    (counts : ℕ × ℕ) (n : ℕ) :
    ∃ k n', (runTrials rng numSimulations perturbationScale counts entry).run n =
        .ok (counts.1 + k, counts.2 + numSimulations.toNat) n' ∧
      (2 * perturbationScale < entry.margin → k = numSimulations.toNat) ∧
      (entry.margin ≤ -(2 * perturbationScale) → k = 0) ∧ k ≤ numSimulations.toNat := by
  obtain ⟨hmin, hmargin⟩ := hentry
  obtain ⟨counts', n', hrun, k, rfl, hk, hgood, hbad⟩ := PyM.run_foldlM_of
    (P := fun pre (counts' : ℕ × ℕ) => ∃ k, counts' = (counts.1 + k, counts.2 + pre.length) ∧
      k ≤ pre.length ∧ (2 * perturbationScale < entry.margin → k = pre.length) ∧
      (entry.margin ≤ -(2 * perturbationScale) → k = 0))
    (l := List.range numSimulations.toNat)
    (f := fun counts _ => do
      let keeps ← perturbationKeepsTopk entry.selectedLogits entry.strongestUnselectedLogit
        perturbationScale rng
      pure (if keeps then counts.1 + 1 else counts.1, counts.2 + 1))
    (b := counts) ⟨0, rfl, le_rfl, fun _ => rfl, fun _ => rfl⟩ (by
      rintro pre i _ n₁ - ⟨k, rfl, hk, hgood, hbad⟩
      obtain ⟨keeps, n₂, hrun, htrue, hfalse⟩ := run_perturbationKeepsTopk hrng hscale hmin
        entry.strongestUnselectedLogit n₁
      rw [← hmargin] at htrue hfalse
      refine ⟨_, n₂, by rw [PyM.run_bind_of_ok hrun]; rfl, ?_⟩
      rw [List.length_append, List.length_singleton]
      cases keeps with
      | true =>
        refine ⟨k + 1, rfl, by omega, fun h => by rw [hgood h], fun h => ?_⟩
        exact absurd (hfalse h) (by decide)
      | false =>
        refine ⟨k, rfl, by omega, fun h => ?_, hbad⟩
        exact absurd (htrue h) (by decide)) n
  rw [List.length_range] at hrun hk hgood
  exact ⟨k, n', hrun, hgood, hbad, hk⟩

/-- The trials of all entries of a layer. -/
theorem run_trials {entries : List LayerEntry} (hentries : ∀ entry ∈ entries, entry.Sound)
    (numSimulations : ℤ) (n : ℕ) :
    ∃ stable n', (entries.foldlM (runTrials rng numSimulations perturbationScale) (0, 0)).run n =
        .ok (stable, entries.length * numSimulations.toNat) n' ∧
      entries.countP (2 * perturbationScale < ·.margin) * numSimulations.toNat ≤ stable ∧
      stable ≤ entries.countP (-(2 * perturbationScale) < ·.margin) * numSimulations.toNat := by
  obtain ⟨counts, n', hrun, stable, rfl, hlow, hhigh⟩ := PyM.run_foldlM_of
    (P := fun pre (counts : ℕ × ℕ) => ∃ stable,
      counts = (stable, pre.length * numSimulations.toNat) ∧
      pre.countP (2 * perturbationScale < ·.margin) * numSimulations.toNat ≤ stable ∧
      stable ≤ pre.countP (-(2 * perturbationScale) < ·.margin) * numSimulations.toNat)
    (l := entries) (f := runTrials rng numSimulations perturbationScale) (b := (0, 0))
    ⟨0, by simp, by simp, by simp⟩ (by
      rintro pre entry _ n₁ hmem ⟨stable, rfl, hlow, hhigh⟩
      obtain ⟨k, n₂, hrun, hgood, hbad, hk⟩ := run_runTrials hrng hscale (hentries entry hmem)
        numSimulations (stable, pre.length * numSimulations.toNat) n₁
      refine ⟨_, n₂, hrun, stable + k, ?_, ?_, ?_⟩
      · rw [List.length_append, List.length_singleton, Nat.add_mul, Nat.one_mul]
      · rw [List.countP_append, List.countP_singleton, Nat.add_mul]
        split
        · rename_i h
          rw [hgood (of_decide_eq_true h)]
          omega
        · omega
      · rw [List.countP_append, List.countP_singleton, Nat.add_mul]
        split
        · omega
        · rename_i h
          rw [hbad (not_lt.mp (of_decide_eq_false (by simpa using h)))]
          omega) n
  exact ⟨stable, n', hrun, hlow, hhigh⟩

end Trials

/-! ## The rate of a layer -/

/-- The fraction of the elements that satisfy `p`. -/
def fraction {α : Type} (p : α → Bool) (xs : List α) : ℚ := (xs.countP p : ℚ) / xs.length

/-- A rate between the fraction of margins above `2 * eps` and that of margins above `-2 * eps`. -/
structure Bracketed (perturbationScale : ℚ) (margins : List ℚ) (rate : ℚ) : Prop where
  lower : fraction (2 * perturbationScale < ·) margins ≤ rate
  upper : rate ≤ fraction (-(2 * perturbationScale) < ·) margins

theorem fraction_eq_one {α : Type} {p : α → Bool} {xs : List α} (hne : xs ≠ [])
    (h : ∀ x ∈ xs, p x = true) : fraction p xs = 1 := by
  have hpos : (xs.length : ℚ) ≠ 0 := by
    rw [Nat.cast_ne_zero, Ne, List.length_eq_zero_iff]
    exact hne
  rw [fraction, List.countP_eq_length.mpr h, div_self hpos]

theorem fraction_eq_zero {α : Type} {p : α → Bool} {xs : List α} (h : ∀ x ∈ xs, p x = false) :
    fraction p xs = 0 := by
  rw [fraction, List.countP_eq_zero.mpr fun x hx => by simp [h x hx], Nat.cast_zero, zero_div]

theorem fraction_le_one {α : Type} (p : α → Bool) (xs : List α) : fraction p xs ≤ 1 := by
  refine div_le_one_of_le₀ ?_ (Nat.cast_nonneg _)
  exact_mod_cast List.countP_le_length

theorem fraction_nonneg {α : Type} (p : α → Bool) (xs : List α) : 0 ≤ fraction p xs :=
  div_nonneg (Nat.cast_nonneg _) (Nat.cast_nonneg _)

namespace Bracketed

variable {perturbationScale : ℚ} {margins : List ℚ} {rate : ℚ}
  (h : Bracketed perturbationScale margins rate)

include h

theorem eq_one (hne : margins ≠ []) (hall : ∀ m ∈ margins, 2 * perturbationScale < m) : rate = 1 := by
  have hone := fraction_eq_one (p := fun m => decide (2 * perturbationScale < m)) hne
    fun m hm => decide_eq_true (hall m hm)
  exact le_antisymm (h.upper.trans (fraction_le_one _ _)) (hone ▸ h.lower)

theorem eq_zero (hall : ∀ m ∈ margins, m ≤ -(2 * perturbationScale)) : rate = 0 := by
  have hzero := fraction_eq_zero (p := fun m => decide (-(2 * perturbationScale) < m))
    fun m hm => decide_eq_false (not_lt.mpr (hall m hm))
  exact le_antisymm (hzero ▸ h.upper) ((fraction_nonneg _ _).trans h.lower)

end Bracketed

theorem run_stabilityRate {rng : Generator} (hrng : rng.Bounded) {perturbationScale : ℚ}
    (hscale : 0 < perturbationScale) {numSimulations : ℤ} (hsim : 1 ≤ numSimulations)
    {entries : List LayerEntry} (hentries : ∀ entry ∈ entries, entry.Sound) (hne : entries ≠ [])
    (n : ℕ) :
    ∃ rate n', (stabilityRate rng numSimulations perturbationScale entries).run n = .ok (some rate) n' ∧
      Bracketed perturbationScale (entries.map (·.margin)) rate := by
  obtain ⟨stable, n', hrun, hlow, hhigh⟩ := run_trials hrng hscale hentries numSimulations n
  have hlen : 0 < entries.length := List.length_pos_of_ne_nil hne
  have hsims : 0 < numSimulations.toNat := by omega
  have htotal : 0 < entries.length * numSimulations.toNat := Nat.mul_pos hlen hsims
  have htotal' : (0 : ℚ) < ((entries.length * numSimulations.toNat : ℕ) : ℚ) := by exact_mod_cast htotal
  have hlen' : (0 : ℚ) < (entries.length : ℚ) := by exact_mod_cast hlen
  refine ⟨(stable : ℚ) / (entries.length * numSimulations.toNat : ℕ), n', ?_, ?_, ?_⟩
  · rw [stabilityRate, if_pos ⟨hscale, by omega⟩, PyM.run_bind_of_ok hrun]
    simp only [if_pos htotal]
    rfl
  -- both bounds are the bounds on the counts, over the number of trials
  · rw [fraction, List.length_map, List.countP_map, div_le_div_iff₀ hlen' htotal']
    norm_cast
    calc _ = entries.countP (2 * perturbationScale < ·.margin) * numSimulations.toNat *
          entries.length := by rw [Nat.mul_comm entries.length, Nat.mul_assoc]; rfl
      _ ≤ stable * entries.length := Nat.mul_le_mul_right _ hlow
  · rw [fraction, List.length_map, List.countP_map, div_le_div_iff₀ htotal' hlen']
    norm_cast
    calc stable * entries.length ≤ entries.countP (-(2 * perturbationScale) < ·.margin) *
          numSimulations.toNat * entries.length := Nat.mul_le_mul_right _ hhigh
      _ = _ := by rw [Nat.mul_comm entries.length, Nat.mul_assoc]; rfl

/-! ## The entries of a layer -/

theorem layerEntry_eq_some {layerData : LayerData} {entry : LayerEntry}
    (h : layerEntry layerData = some entry) :
    extractLayerMargin layerData = some entry.toLayerMargin ∧ entry.Sound := by
  obtain ⟨m, hm, rfl⟩ := Option.map_eq_some_iff.mp h
  refine ⟨hm, ?_⟩
  unfold extractLayerMargin at hm
  dsimp only at hm
  split at hm
  · cases hm
  · split at hm
    · cases hm
    · split at hm
      · rename_i hmin
        cases hm
        exact ⟨hmin, rfl⟩
      · cases hm

/-- The entries of a layer id, in the order of the records. -/
def entriesOf (records : List OutputRecord) (layerId : String) : List LayerEntry :=
  records.filterMap fun record => (record.layers.get? layerId).bind layerEntry

/-- The margins of a layer id, in the order of the records. -/
def layerMargins (records : List OutputRecord) (layerId : String) : List ℚ :=
  records.filterMap fun record =>
    ((record.layers.get? layerId).bind extractLayerMargin).map (·.margin)

theorem map_margin_entriesOf (records : List OutputRecord) (layerId : String) :
    (entriesOf records layerId).map (·.margin) = layerMargins records layerId := by
  rw [entriesOf, layerMargins, List.map_filterMap]
  refine List.filterMap_congr fun record _ => ?_
  cases record.layers.get? layerId with
  | none => rfl
  | some d =>
    show (layerEntry d).map _ = (extractLayerMargin d).map _
    rw [layerEntry, Option.map_map]
    rfl

theorem getD_addLayerEntry (layerEntries : LayerEntries) (p : String × LayerData) (layerId : String) :
    (addLayerEntry layerEntries p).getD layerId [] =
      layerEntries.getD layerId [] ++ if p.1 = layerId then (layerEntry p.2).toList else [] := by
  obtain ⟨key, d⟩ := p
  rw [addLayerEntry]
  cases layerEntry d with
  | none => simp
  | some entry =>
    simp only [PyDict.getD_modify, Option.toList_some]
    by_cases hkey : key = layerId
    · simp [hkey]
    · simp [hkey, Ne.symm hkey]

/-- The loop over the layers of a record adds the entry of every layer id to its own list. -/
theorem getD_foldl_addLayerEntry (layers : PyDict String LayerData) (layerEntries : LayerEntries)
    (layerId : String) :
    (layers.entries.foldl addLayerEntry layerEntries).getD layerId [] =
      layerEntries.getD layerId [] ++ ((layers.get? layerId).bind layerEntry).toList := by
  obtain ⟨entries, hnodup⟩ := layers
  simp only [PyDict.get?]
  induction entries generalizing layerEntries with
  | nil => simp
  | cons p entries ih =>
    obtain ⟨key, d⟩ := p
    rw [List.map_cons, List.nodup_cons] at hnodup
    rw [List.foldl_cons, ih _ hnodup.2, getD_addLayerEntry, List.lookup_cons]
    by_cases hkey : key = layerId
    · -- the key does not come again
      subst hkey
      have hnone : entries.lookup key = none := by
        rw [List.lookup_eq_none_iff]
        intro q hq
        rw [bne_iff_ne]
        rintro rfl
        exact hnodup.1 (List.mem_map.mpr ⟨q, hq, rfl⟩)
      simp [hnone]
    · have hbeq : (layerId == key) = false := by simpa using Ne.symm hkey
      simp [hkey, hbeq]

/-- Every key of `layer_entries` has an entry. -/
def LayerEntries.Full (layerEntries : LayerEntries) : Prop :=
  ∀ layerId ∈ layerEntries.keys, layerEntries.getD layerId [] ≠ []

theorem LayerEntries.Full.add {layerEntries : LayerEntries} (h : layerEntries.Full)
    (p : String × LayerData) : (addLayerEntry layerEntries p).Full := by
  intro k hk
  rw [getD_addLayerEntry]
  obtain ⟨key, d⟩ := p
  rw [addLayerEntry] at hk
  cases hd : layerEntry d with
  | none =>
    rw [hd] at hk
    simp [h k hk]
  | some entry =>
    rw [hd] at hk
    rcases PyDict.mem_keys_set.mp hk with hk | rfl
    · simp [h k hk]
    · simp

theorem full_collectLayerEntries (records : List OutputRecord) : (collectLayerEntries records).Full := by
  have hempty : LayerEntries.Full ∅ := fun k hk => by cases hk
  have hrecord : ∀ (entries : List (String × LayerData)) (layerEntries : LayerEntries),
      layerEntries.Full → (entries.foldl addLayerEntry layerEntries).Full := by
    intro entries
    induction entries with
    | nil => exact fun _ h => h
    | cons p entries ih => exact fun _ h => ih _ (h.add p)
  rw [collectLayerEntries]
  generalize (∅ : LayerEntries) = layerEntries at hempty
  induction records generalizing layerEntries with
  | nil => exact hempty
  | cons record records ih => exact ih _ (hrecord _ _ hempty)

theorem getD_collectLayerEntries (records : List OutputRecord) (layerId : String) :
    (collectLayerEntries records).getD layerId [] = entriesOf records layerId := by
  suffices key : ∀ layerEntries : LayerEntries,
      (records.foldl (fun layerEntries record => record.layers.entries.foldl addLayerEntry layerEntries)
        layerEntries).getD layerId [] = layerEntries.getD layerId [] ++ entriesOf records layerId from
    key ∅
  induction records with
  | nil => simp [entriesOf]
  | cons record records ih =>
    intro layerEntries
    rw [List.foldl_cons, ih, getD_foldl_addLayerEntry, List.append_assoc, entriesOf, entriesOf,
      List.filterMap_cons]
    cases (record.layers.get? layerId).bind layerEntry <;> rfl

theorem mem_keys_collectLayerEntries {records : List OutputRecord} {layerId : String} :
    layerId ∈ (collectLayerEntries records).keys ↔ entriesOf records layerId ≠ [] := by
  rw [← getD_collectLayerEntries]
  constructor
  · exact full_collectLayerEntries records layerId
  · intro hne
    obtain ⟨entries, hget⟩ := PyDict.exists_get?_of_getD_ne hne
    exact PyDict.get?_isSome_iff.mp (Option.isSome_of_eq_some hget)

theorem sound_of_mem_entriesOf {records : List OutputRecord} {layerId : String} {entry : LayerEntry}
    (h : entry ∈ entriesOf records layerId) : entry.Sound := by
  obtain ⟨record, -, hentry⟩ := List.mem_filterMap.mp h
  obtain ⟨d, -, hd⟩ := Option.bind_eq_some_iff.mp hentry
  exact (layerEntry_eq_some hd).2

theorem exists_intKey {key : String} : (∃ k, intKey key = .ok k) ↔ (pyInt key).isSome := by
  unfold intKey
  cases pyInt key with
  | none => simp
  | some layerIdx => simp

theorem intKey_snd {key : String} {k : ℤ × String} (h : intKey key = .ok k) : k.2 = key := by
  unfold intKey at h
  split at h
  · cases h
  · cases h
    rfl

/-- Sorting by `int` raises exactly if a key is no integer literal, and else only reorders the keys. -/
theorem sortedByInt_perm {keys layerIds : List String} (h : sortedByInt keys = .ok layerIds) :
    layerIds.Perm keys := by
  obtain ⟨keyed, hkeyed, hret⟩ := except_bind_eq_ok.mp h
  cases hret
  have hkeys : keyed.map Prod.snd = keys := by
    clear h
    induction keys generalizing keyed with
    | nil => cases hkeyed; rfl
    | cons key keys ih =>
      rw [List.mapM_cons] at hkeyed
      obtain ⟨k, hk, hkeyed⟩ := except_bind_eq_ok.mp hkeyed
      obtain ⟨rest, hrest, hret⟩ := except_bind_eq_ok.mp hkeyed
      cases hret
      rw [List.map_cons, ih rest hrest, intKey_snd hk]
  rw [← hkeys]
  exact (List.perm_insertionSort _ keyed).map Prod.snd

theorem exists_sortedByInt {keys : List String} :
    (∃ layerIds, sortedByInt keys = .ok layerIds) ↔ ∀ key ∈ keys, (pyInt key).isSome := by
  constructor
  · rintro ⟨layerIds, h⟩ key hkey
    obtain ⟨keyed, hkeyed, -⟩ := except_bind_eq_ok.mp h
    exact exists_intKey.mp (forall_of_mapM_eq_ok hkeyed key hkey)
  · intro h
    obtain ⟨keyed, hkeyed⟩ := exists_mapM_eq_ok keys fun key hkey => exists_intKey.mpr (h key hkey)
    rw [sortedByInt, hkeyed]
    exact ⟨_, rfl⟩

/-! ## All layers -/

/-- The results of the layers so far: every one has a rate, between the fractions of its margins. -/
structure RssLoop.Inv (records : List OutputRecord) (perturbationScale : ℚ) (layerIds : List String)
    (s : RssLoop) : Prop where
  keys : ∀ layerId, layerId ∈ s.layerResults.keys ↔ layerId ∈ layerIds
  rates : ∀ layerId layer, s.layerResults.get? layerId = some layer → ∃ rate,
    layer.stabilityRate = some rate ∧ Bracketed perturbationScale (layerMargins records layerId) rate

theorem run_addLayerResult (std : List ℚ → ℚ) {rng : Generator} (hrng : rng.Bounded)
    {records : List OutputRecord} {perturbationScale : ℚ} (hscale : 0 < perturbationScale)
    {numSimulations : ℤ} (hsim : 1 ≤ numSimulations) {layerIds : List String} {s : RssLoop}
    (hs : s.Inv records perturbationScale layerIds) {layerId : String}
    (hne : entriesOf records layerId ≠ []) (n : ℕ) :
    ∃ s' n', (addLayerResult std rng numSimulations perturbationScale (collectLayerEntries records) s
        layerId).run n = .ok s' n' ∧ s'.Inv records perturbationScale (layerIds ++ [layerId]) := by
  obtain ⟨rate, n', hrun, hrate⟩ := run_stabilityRate hrng hscale hsim
    (fun entry hentry => sound_of_mem_entriesOf hentry) hne n
  rw [map_margin_entriesOf] at hrate
  rw [addLayerResult, getD_collectLayerEntries, PyM.run_bind_of_ok hrun]
  refine ⟨_, n', rfl, ?_, ?_⟩
  · intro layerId'
    rw [PyDict.mem_keys_set, hs.keys, List.mem_append, List.mem_singleton]
  · intro layerId' layer hget
    rw [PyDict.get?_set] at hget
    split at hget
    · rename_i heq
      subst heq
      cases hget
      exact ⟨rate, rfl, hrate⟩
    · exact hs.rates layerId' layer hget

theorem run_calculateRssByLayer (std : List ℚ → ℚ) {rng : Generator} (hrng : rng.Bounded)
    {records : List OutputRecord} {perturbationScale : ℚ} (hscale : 0 < perturbationScale)
    {numSimulations : ℤ} (hsim : 1 ≤ numSimulations) {layerIds : List String}
    (hids : sortedByInt (collectLayerEntries records).keys = .ok layerIds) :
    ∃ results n', (calculateRssByLayer std rng numSimulations perturbationScale records).run 0 =
        .ok results n' ∧
      (∀ layerId, layerId ∈ results.layerResults.keys ↔ layerMargins records layerId ≠ []) ∧
      ∀ layerId layer, results.layerResults.get? layerId = some layer → ∃ rate,
        layer.stabilityRate = some rate ∧
          Bracketed perturbationScale (layerMargins records layerId) rate := by
  have hperm := sortedByInt_perm hids
  have hmem : ∀ layerId, layerId ∈ layerIds ↔ entriesOf records layerId ≠ [] := fun layerId =>
    hperm.mem_iff.trans mem_keys_collectLayerEntries
  obtain ⟨s, n', hrun, hinv⟩ := PyM.run_foldlM_of
    (P := fun layerIds s => RssLoop.Inv records perturbationScale layerIds s) (l := layerIds)
    (f := addLayerResult std rng numSimulations perturbationScale (collectLayerEntries records))
    (b := {}) ⟨fun _ => Iff.rfl, fun _ _ h => by cases h⟩
    (fun _ layerId _ n hlayerId hs =>
      run_addLayerResult std hrng hscale hsim hs ((hmem layerId).mp hlayerId) n) 0
  refine ⟨s.results std numSimulations perturbationScale records.length, n', ?_, ?_, hinv.rates⟩
  · rw [calculateRssByLayer, hids, PyM.run_bind_of_ok (PyM.run_ofExcept_ok layerIds 0),
      PyM.run_bind_of_ok hrun]
    rfl
  · intro layerId
    rw [RssLoop.results, hinv.keys, hmem, ← map_margin_entriesOf, Ne, Ne, List.map_eq_nil_iff]

/-- **The stability rate is bracketed by the margins.** For every generator within its bounds, every
`perturbation_scale > 0` and `num_simulations >= 1`: the function returns exactly if the id of every layer
with an entry is an integer literal; the layers of the results are those with an entry; and each of them
has a rate of at least the fraction of its margins above `2 * eps` and at most the fraction of its
margins above `-2 * eps`, so `1` if all margins are above `2 * eps` and `0` if none is above
`-2 * eps`. -/
theorem stability_rate_bracketed (std : List ℚ → ℚ) {rng : Generator} (hrng : rng.Bounded)
    (records : List OutputRecord) {perturbationScale : ℚ} (hscale : 0 < perturbationScale)
    {numSimulations : ℤ} (hsim : 1 ≤ numSimulations) :
    ((∃ results n, (calculateRssByLayer std rng numSimulations perturbationScale records).run 0 =
        .ok results n) ↔
      ∀ layerId, layerMargins records layerId ≠ [] → (pyInt layerId).isSome) ∧
    ∀ results n, (calculateRssByLayer std rng numSimulations perturbationScale records).run 0 =
        .ok results n → ∀ layerId,
      (layerId ∈ results.layerResults.keys ↔ layerMargins records layerId ≠ []) ∧
      ∀ layer, results.layerResults.get? layerId = some layer → ∃ rate,
        layer.stabilityRate = some rate ∧
        fraction (2 * perturbationScale < ·) (layerMargins records layerId) ≤ rate ∧
        rate ≤ fraction (-(2 * perturbationScale) < ·) (layerMargins records layerId) ∧
        ((∀ m ∈ layerMargins records layerId, 2 * perturbationScale < m) → rate = 1) ∧
        ((∀ m ∈ layerMargins records layerId, m ≤ -(2 * perturbationScale)) → rate = 0) := by
  constructor
  · have hkeys : (∀ layerId, layerMargins records layerId ≠ [] → (pyInt layerId).isSome) ↔
        ∀ layerId ∈ (collectLayerEntries records).keys, (pyInt layerId).isSome := by
      refine forall_congr' fun layerId => ?_
      rw [mem_keys_collectLayerEntries, ← map_margin_entriesOf, Ne, List.map_eq_nil_iff]
    rw [hkeys, ← exists_sortedByInt]
    constructor
    · rintro ⟨results, n, hrun⟩
      obtain ⟨layerIds, _, hids, -⟩ := PyM.run_bind_eq_ok.mp hrun
      exact ⟨layerIds, (PyM.run_ofExcept_eq_ok.mp hids).1⟩
    · rintro ⟨layerIds, hids⟩
      obtain ⟨results, n, hrun, -⟩ := run_calculateRssByLayer std hrng hscale hsim hids
      exact ⟨results, n, hrun⟩
  · intro results n hrun layerId
    obtain ⟨layerIds, _, hids, -⟩ := PyM.run_bind_eq_ok.mp hrun
    obtain ⟨results', n', hrun', hkeys, hrates⟩ :=
      run_calculateRssByLayer std hrng hscale hsim (PyM.run_ofExcept_eq_ok.mp hids).1
    rw [hrun] at hrun'
    cases hrun'
    refine ⟨hkeys layerId, fun layer hlayer => ?_⟩
    obtain ⟨rate, hrate, hbracket⟩ := hrates layerId layer hlayer
    have hne : layerMargins records layerId ≠ [] :=
      (hkeys layerId).mp (PyDict.get?_isSome_iff.mp (Option.isSome_of_eq_some hlayer))
    exact ⟨rate, hrate, hbracket.lower, hbracket.upper, hbracket.eq_one hne, hbracket.eq_zero⟩

/-- A line with one layer, of margin `1`. -/
def sampleLine : OutputRecord where
  layers := (∅ : PyDict String LayerData).set "0"
    { expertIds := [2, 0], weights := [some (1/4), some (3/4)], logits := some [2, 5],
      nextExpertLogit := some 1 }

/-- A generator that alternates between the lower bound and the middle of the range. -/
def sampleGenerator : Generator := fun n low high => if n % 2 = 0 then low else (low + high) / 2

theorem stability_rate_bracketed_sample :
    ∃ results n layer,
      (calculateRssByLayer (fun _ => 0) sampleGenerator 3 (1/4) [sampleLine]).run 0 = .ok results n ∧
      results.layerResults.get? "0" = some layer ∧ layer.stabilityRate = some 1 := by
  have hrng : sampleGenerator.Bounded := by
    intro n low high h
    unfold sampleGenerator
    split
    · exact ⟨le_rfl, h⟩
    · constructor <;> linarith
  have hmargins : layerMargins [sampleLine] "0" = [1] := by decide +kernel
  obtain ⟨hreturns, hresults⟩ := stability_rate_bracketed (fun _ => 0) hrng [sampleLine]
    (show (0 : ℚ) < 1/4 by norm_num) (show (1 : ℤ) ≤ 3 by decide)
  obtain ⟨results, n, hrun⟩ := hreturns.mpr fun layerId hne => by
    by_cases hid : layerId = "0"
    · subst hid
      decide
    · refine absurd ?_ hne
      have hnone : sampleLine.layers.get? layerId = none := by
        rw [sampleLine, PyDict.get?_set_ne _ _ hid, PyDict.get?_empty]
      simp [layerMargins, hnone]
  obtain ⟨hkey, hlayer⟩ := hresults results n hrun "0"
  obtain ⟨layer, hget⟩ := Option.isSome_iff_exists.mp (PyDict.get?_isSome_iff.mpr
    (hkey.mpr (by rw [hmargins]; simp)))
  obtain ⟨rate, hrate, -, -, hone, -⟩ := hlayer layer hget
  refine ⟨results, n, layer, hrun, hget, ?_⟩
  rw [hrate, hone fun m hm => ?_]
  rw [hmargins, List.mem_singleton] at hm
  rw [hm]
  norm_num

end MoeSpecialization.Metrics
