import MoeSpecialization.Recorder.Buffers
import Mathlib.Algebra.GroupWithZero.Nat
import Mathlib.Algebra.Order.BigOperators.Group.List

/-!
# Per-token and statistic recording

Reference: `_SelectExpertsSinglePassGatherer` and `_convert_per_token_to_global_physical_count` in
`sglang/srt/eplb/expert_distribution.py`.

The statistic gatherer adds every selected id to a count as soon as a layer reports it; the id `-1` adds
nothing to the expert `0`. The per-token gatherer writes the ids to its padded buffer and counts the
first `num_tokens` rows of it when the pass ends. If every layer reports once, within the width of the
buffer, both give the number of slots that were routed to each expert.
-/

namespace MoeSpecialization.Recorder

open Py

/-! ## The statistic gatherer -/

/-- `_SelectExpertsSinglePassGatherer`. -/
structure SelectExpertsGatherer where
  data : Mat ℕ

namespace SelectExpertsGatherer

/-- `__init__`. -/
def init (cfg : RecorderConfig) : SelectExpertsGatherer where
  data := ⟨cfg.numLayers, cfg.numPhysicalExperts, fun _ _ => 0⟩

/-- `reset`. -/
def reset (s : SelectExpertsGatherer) : SelectExpertsGatherer where
  data := { s.data with cell := fun _ _ => 0 }

/-- A pair of `topk_ids.masked_fill(~mask, 0)` and `mask.int()`. -/
def maskedUpdate (e : ℤ) : ℤ × ℕ := if e ≠ -1 then (e, 1) else (0, 0)

/-- `on_select_experts`. The router logits and the top-k weights are not read. -/
def onSelectExperts (layerIdx : ℕ) (topkIds : Mat ℤ) : PyM SelectExpertsGatherer Unit := do
  let s ← get
  let data ← PyM.ofExcept (s.data.scatterAdd layerIdx (topkIds.flatten.map maskedUpdate))
  set { s with data := data }

/-- `collect`. -/
def collect (s : SelectExpertsGatherer) : List (List ℕ) := s.data.toLists

end SelectExpertsGatherer

/-- A forward pass on the statistic gatherer. Its `on_forward_pass_start` does nothing. -/
def countPass (calls : List SelectCall) : PyM SelectExpertsGatherer Unit := do
  modify SelectExpertsGatherer.reset
  calls.forM fun c => SelectExpertsGatherer.onSelectExperts c.layerIdx c.topkIds

/-- The number of slots of a layer that are routed to an expert in some calls. -/
def routedSlots (calls : List SelectCall) (l e : ℕ) : ℕ :=
  (calls.map fun c => if c.layerIdx = l then c.topkIds.flatten.count (e : ℤ) else 0).sum

theorem routedSlots_concat (calls : List SelectCall) (c : SelectCall) (l e : ℕ) :
    routedSlots (calls ++ [c]) l e =
      routedSlots calls l e + if c.layerIdx = l then c.topkIds.flatten.count (e : ℤ) else 0 := by
  rw [routedSlots, List.map_append, List.sum_append, List.map_singleton, List.sum_singleton]
  rfl

/-- The counts `[layer][expert]` of some calls. -/
def routedCounts (cfg : RecorderConfig) (calls : List SelectCall) : List (List ℕ) :=
  (List.range cfg.numLayers).map fun l => (List.range cfg.numPhysicalExperts).map (routedSlots calls l)

/-- The ids of a call are the sentinel or physical experts. -/
def SelectCall.IdsInRange (cfg : RecorderConfig) (c : SelectCall) : Prop :=
  ∀ e ∈ c.topkIds.flatten, e = -1 ∨ 0 ≤ e ∧ e < cfg.numPhysicalExperts

instance (cfg : RecorderConfig) (c : SelectCall) : Decidable (c.IdsInRange cfg) :=
  inferInstanceAs (Decidable (∀ e ∈ c.topkIds.flatten, e = -1 ∨ 0 ≤ e ∧ e < cfg.numPhysicalExperts))

/-- A masked id adds to its own expert only, and the sentinel to none. -/
theorem foldl_maskedUpdate (ids : List ℤ) (k n : ℕ) :
    (ids.map SelectExpertsGatherer.maskedUpdate).foldl
      (fun acc u => if u.1 = (k : ℤ) then acc + u.2 else acc) n = n + ids.count (k : ℤ) := by
  induction ids generalizing n with
  | nil => rfl
  | cons e ids ih =>
    rw [List.map_cons, List.foldl_cons, ih, List.count_cons, SelectExpertsGatherer.maskedUpdate]
    by_cases he : e = -1
    · have hne : ¬((-1 : ℤ) = k) := by omega
      simp [he, hne]
    · by_cases hk : e = k
      · subst hk
        simp [he]
        omega
      · simp [he, hk]

theorem run_onSelectExperts {cfg : RecorderConfig} {c : SelectCall} {s : SelectExpertsGatherer}
    (hrows : s.data.rows = cfg.numLayers) (hcols : s.data.cols = cfg.numPhysicalExperts)
    (hpos : 0 < cfg.numPhysicalExperts) (hlayer : c.layerIdx < cfg.numLayers)
    (hids : c.IdsInRange cfg) :
    (SelectExpertsGatherer.onSelectExperts c.layerIdx c.topkIds).run s = .ok () ⟨s.data.rows, s.data.cols,
      fun l e => s.data.cell l e + if c.layerIdx = l then c.topkIds.flatten.count (e : ℤ) else 0⟩ := by
  have hall : (c.topkIds.flatten.map SelectExpertsGatherer.maskedUpdate).all
      (fun u => decide (0 ≤ u.1 ∧ u.1 < s.data.cols)) = true := by
    refine List.all_eq_true.mpr fun u hu => decide_eq_true ?_
    obtain ⟨e, he, rfl⟩ := List.mem_map.mp hu
    rw [hcols, SelectExpertsGatherer.maskedUpdate]
    rcases hids e he with rfl | hrange
    · simpa using hpos
    · rw [if_pos (by omega)]
      exact hrange
  have hscatter : s.data.scatterAdd c.layerIdx
      (c.topkIds.flatten.map SelectExpertsGatherer.maskedUpdate) = .ok ⟨s.data.rows, s.data.cols,
        fun l e => s.data.cell l e + if c.layerIdx = l then c.topkIds.flatten.count (e : ℤ) else 0⟩ := by
    rw [Mat.scatterAdd, if_neg (by omega), if_pos hall]
    refine congrArg (fun cell => Except.ok (Mat.mk _ _ cell)) (funext fun l => funext fun e => ?_)
    rw [foldl_maskedUpdate]
    by_cases hl : l = c.layerIdx
    · rw [if_pos hl, if_pos hl.symm]
    · rw [if_neg hl, if_neg (Ne.symm hl), Nat.add_zero]
  rw [SelectExpertsGatherer.onSelectExperts, PyM.run_bind_of_ok (PyM.run_get s), hscatter,
    PyM.run_bind_of_ok (PyM.run_ofExcept_ok _ s)]
  rfl

/-- The statistic gatherer counts the routed slots, whatever it held. -/
theorem run_countPass {cfg : RecorderConfig} {s : SelectExpertsGatherer} {calls : List SelectCall}
    (hrows : s.data.rows = cfg.numLayers) (hcols : s.data.cols = cfg.numPhysicalExperts)
    (hpos : 0 < cfg.numPhysicalExperts) (hlayers : ∀ c ∈ calls, c.layerIdx < cfg.numLayers)
    (hids : ∀ c ∈ calls, c.IdsInRange cfg) :
    (countPass calls).run s = .ok () ⟨cfg.numLayers, cfg.numPhysicalExperts, routedSlots calls⟩ := by
  rw [countPass, PyM.run_bind_of_ok (PyM.run_modify _ _)]
  induction calls using List.reverseRecOn with
  | nil =>
    rw [← hrows, ← hcols]
    rfl
  | append_singleton calls c ih =>
    have hcalls := ih (fun c hc => hlayers c (by simp [hc])) fun c hc => hids c (by simp [hc])
    refine PyM.run_forM_concat.mpr ⟨_, hcalls, ?_⟩
    rw [run_onSelectExperts rfl rfl hpos (hlayers c (by simp)) (hids c (by simp))]
    simp only [← routedSlots_concat]

/-! ## The per-token gatherer -/

theorem widthAfter_eq_self {width : ℕ} {calls : List SelectCall}
    (h : ∀ c ∈ calls, c.topkIds.cols ≤ width) : widthAfter width calls = width := by
  induction calls using List.reverseRecOn with
  | nil => rfl
  | append_singleton calls c ih =>
    have hc := h c (by simp)
    rw [widthAfter_concat, ih fun c hc => h c (by simp [hc])]
    omega

theorem lastWrite_eq_none_of_layer {α : Type} {block : SelectCall → Option (Mat α)}
    {calls : List SelectCall} {l : ℕ} (h : ∀ c ∈ calls, c.layerIdx ≠ l) (t s : ℕ) :
    lastWrite block calls l t s = none := by
  induction calls using List.reverseRecOn with
  | nil => rfl
  | append_singleton calls c ih =>
    rw [lastWrite_concat, ih fun c hc => h c (by simp [hc]), Option.or_none, Tensor3.blockAt]
    refine Option.bind_eq_none_iff.mpr fun m _ => if_neg ?_
    exact fun hm => h c (by simp) hm.1.symm

/-- The counts of a buffer with the last ids of a pass. A layer that reports once is either the last one or
it is not written any more. -/
theorem count_lastWrite {calls : List SelectCall} (honce : (calls.map SelectCall.layerIdx).Nodup)
    {n w : ℕ} (hn : ∀ c ∈ calls, c.topkIds.rows ≤ n) (hw : ∀ c ∈ calls, c.topkIds.cols ≤ w) (l e : ℕ) :
    ((List.range n).flatMap fun t => (List.range w).map fun s =>
        (lastWrite SelectCall.idsBlock calls l t s).getD (-1)).count (e : ℤ) = routedSlots calls l e := by
  have hne : (-1 : ℤ) ≠ e := by omega
  induction calls using List.reverseRecOn with
  | nil =>
    refine List.count_eq_zero.mpr fun he => ?_
    obtain ⟨t, -, he⟩ := List.mem_flatMap.mp he
    obtain ⟨s, -, he⟩ := List.mem_map.mp he
    exact hne he
  | append_singleton calls c ih =>
    rw [List.map_append, List.map_singleton, List.nodup_append] at honce
    obtain ⟨honce, -, hnew⟩ := honce
    have hcalls := ih honce (fun c hc => hn c (by simp [hc])) fun c hc => hw c (by simp [hc])
    rw [routedSlots_concat]
    by_cases hl : c.layerIdx = l
    · subst hl
      have hother : ∀ c' ∈ calls, c'.layerIdx ≠ c.layerIdx := fun c' hc' =>
        hnew _ (List.mem_map_of_mem hc') _ (List.mem_singleton.mpr rfl)
      have hzero : routedSlots calls c.layerIdx e = 0 := by
        refine List.sum_eq_zero fun x hx => ?_
        obtain ⟨c', hc', rfl⟩ := List.mem_map.mp hx
        exact if_neg (hother c' hc')
      have hnone : ∀ t s, lastWrite SelectCall.idsBlock calls c.layerIdx t s = none :=
        fun t s => lastWrite_eq_none_of_layer hother t s
      rw [hzero, if_pos rfl, Nat.zero_add,
        ← Mat.count_pad (hn c (by simp)) (hw c (by simp)) hne]
      refine congrArg (List.count (e : ℤ)) (List.flatMap_congr fun t _ => List.map_congr_left fun s _ => ?_)
      rw [lastWrite_concat, hnone, Option.or_none, SelectCall.idsBlock, Tensor3.blockAt,
        Option.bind_some]
      split_ifs <;> simp_all
    · rw [if_neg hl, Nat.add_zero, ← hcalls]
      refine congrArg (List.count (e : ℤ)) (List.flatMap_congr fun t _ => List.map_congr_left fun s _ => ?_)
      rw [lastWrite_concat, SelectCall.idsBlock, Tensor3.blockAt, Option.bind_some,
        if_neg fun h => hl h.1.symm, Option.none_or]

/-- The count of a layer is the number of times that each id stands in the rows of the tokens. -/
theorem countLayer_eq_ok {numTokens numPhysicalExperts : ℕ} {topkIds : Tensor3 ℤ} {l : ℕ}
    {count : List ℕ} (h : Gatherer.countLayer numTokens numPhysicalExperts topkIds l = .ok count) :
    count = (List.range numPhysicalExperts).map fun e : ℕ =>
      (topkIds.layerRows numTokens l).flatten.count (e : ℤ) := by
  rw [Gatherer.countLayer] at h
  split at h
  · cases h
  · cases h
    rw [scatterAddOnes_replicate]
    refine List.map_congr_left fun e he => ?_
    have he := List.mem_range.mp he
    rw [List.count_eq_countP, List.countP_map, List.countP_filter, List.count_eq_countP]
    refine List.countP_congr fun id _ => ?_
    simp only [Function.comp_apply, Bool.and_eq_true, beq_iff_eq, decide_eq_true_eq]
    omega

/-- After a pass whose layers report once and inside the buffer, the collected counts are the routed
slots. -/
theorem collect_globalPhysicalCount {cfg : RecorderConfig} {batch : ForwardBatch} {width : ℕ}
    {calls : List SelectCall} {g : Gatherer} {data : SinglePassData}
    (hcells : PassCells cfg batch width calls g) (hcollect : g.collect cfg = .ok data)
    (honce : (calls.map SelectCall.layerIdx).Nodup)
    (hrows : ∀ c ∈ calls, c.topkIds.rows ≤ min batch.inputIds.length cfg.bufferRows)
    (hcols : ∀ c ∈ calls, c.topkIds.cols ≤ width) :
    data.globalPhysicalCount = routedCounts cfg calls := by
  obtain ⟨-, -, -, hcount⟩ := collect_eq_ok hcells.metadata hcollect
  have hwidth := widthAfter_eq_self hcols
  have hdim2 := hcells.dim2.trans hwidth
  have hlayer : ∀ l ∈ List.range cfg.numLayers, ∀ count,
      Gatherer.countLayer batch.inputIds.length cfg.numPhysicalExperts g.topkIdsOfLayer l = .ok count →
        count = (List.range cfg.numPhysicalExperts).map (routedSlots calls l) := by
    intro l _ count h
    rw [countLayer_eq_ok h]
    refine List.map_congr_left fun e _ => ?_
    rw [← count_lastWrite honce hrows hcols, Tensor3.layerRows, hcells.shaped.ids_dim1, hdim2,
      ← List.flatMap_def]
    refine congrArg (List.count (e : ℤ)) (List.flatMap_congr fun t _ => List.map_congr_left fun s hs => ?_)
    have hs := List.mem_range.mp hs
    rw [hcells.ids l t s (by omega), if_pos hs]
  have hmap : (List.range cfg.numLayers).mapM (Gatherer.countLayer batch.inputIds.length
      cfg.numPhysicalExperts g.topkIdsOfLayer) = .ok (routedCounts cfg calls) := by
    refine mapM_eq_ok_map fun l hl => ?_
    obtain ⟨count, h⟩ := forall_of_mapM_eq_ok hcount l hl
    rw [h, hlayer l hl count h]
  exact Except.ok.inj (hcount.symm.trans hmap)

/-- **Per-token and statistic recording agree.** After any earlier calls, a pass in which every layer
reports at most once, with rows that fit the tokens and the buffers, physical ids or `-1`, and no more
slots than the buffers have, returns. If `collect` returns, it counts the slots that were routed to each
expert, and so does the statistic gatherer on the same calls, whatever it held before its reset. -/
theorem physical_counts_agree (cfg : RecorderConfig) (history : List GathererCall)
    (batch : ForwardBatch) {calls : List SelectCall}
    (hlayers : ∀ c ∈ calls, c.layerIdx < cfg.numLayers)
    (honce : (calls.map SelectCall.layerIdx).Nodup)
    (htokens : ∀ c ∈ calls, c.topkIds.rows ≤ batch.inputIds.length)
    (hrows : ∀ c ∈ calls, c.topkIds.rows ≤ cfg.bufferRows)
    (hcols : ∀ c ∈ calls, c.topkIds.cols ≤ (gathererAfter cfg history).topkIdsOfLayer.dim2)
    (hids : ∀ c ∈ calls, c.IdsInRange cfg) :
    ∃ g', (recordPass cfg batch calls).run (gathererAfter cfg history) = .ok () g' ∧
      ∀ data, g'.collect cfg = .ok data →
        data.globalPhysicalCount = routedCounts cfg calls ∧
        (0 < cfg.numPhysicalExperts → ∀ s : SelectExpertsGatherer, s.data.rows = cfg.numLayers →
          s.data.cols = cfg.numPhysicalExperts →
          ∃ s', (countPass calls).run s = .ok () s' ∧ s'.collect = data.globalPhysicalCount) := by
  have hstart := @passCells_nil cfg batch _ (shaped_gathererAfter cfg history)
  obtain ⟨g', hrun⟩ := exists_run_calls hstart hlayers hrows
  obtain ⟨-, hcells⟩ := run_calls hstart hlayers hrun
  refine ⟨g', hrun, fun data hcollect => ?_⟩
  have hcounts := collect_globalPhysicalCount hcells hcollect honce
    (fun c hc => le_min (htokens c hc) (hrows c hc)) hcols
  refine ⟨hcounts, fun hpos s hsrows hscols => ?_⟩
  refine ⟨_, run_countPass hsrows hscols hpos hlayers hids, ?_⟩
  rw [hcounts]
  rfl

theorem physical_counts_agree_sample :
    ∃ g', (recordPass twoLayerConfig { inputIds := [7] } [sampleCall 2]).run
        (gathererAfter twoLayerConfig []) = .ok () g' ∧
      ∀ data, g'.collect twoLayerConfig = .ok data →
        data.globalPhysicalCount = routedCounts twoLayerConfig [sampleCall 2] ∧
        (0 < twoLayerConfig.numPhysicalExperts → ∀ s : SelectExpertsGatherer,
          s.data.rows = twoLayerConfig.numLayers → s.data.cols = twoLayerConfig.numPhysicalExperts →
          ∃ s', (countPass [sampleCall 2]).run s = .ok () s' ∧
            s'.collect = data.globalPhysicalCount) :=
  physical_counts_agree twoLayerConfig [] { inputIds := [7] } (by decide) (by decide) (by decide)
    (by decide) (by decide) (by decide)

/-- A call for nine tokens. -/
def longCall : SelectCall where
  layerIdx := 0
  topkIds := ⟨9, 1, fun _ _ => 0⟩
  logits_rows := by simp
  weights_rows := by simp
  weights_cols := by simp

/-- A pass of nine tokens on buffers of eight rows. The call raises, and the `collect` that follows in
`with_forward_pass` returns a count without it. -/
theorem physical_counts_long_call :
    longCall.topkIds.rows ≤ ({ inputIds := List.replicate 9 7 } : ForwardBatch).inputIds.length ∧
      longCall.topkIds.cols ≤ (gathererAfter sampleConfig []).topkIdsOfLayer.dim2 ∧
      longCall.IdsInRange sampleConfig ∧
      ∃ data, (PyM.final (recordPass sampleConfig { inputIds := List.replicate 9 7 } [longCall])
          (gathererAfter sampleConfig [])).collect sampleConfig = .ok data ∧
        data.globalPhysicalCount ≠ routedCounts sampleConfig [longCall] :=
  ⟨by decide, by decide, by decide, _, rfl, by decide⟩

end MoeSpecialization.Recorder
