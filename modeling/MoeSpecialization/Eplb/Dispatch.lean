import MoeSpecialization.Eplb.Metadata
import MoeSpecialization.Recorder.SelectExperts
import MoeSpecialization.Recorder.StatBuffer

/-!
# Dispatching tokens to physical experts

Reference: `ExpertLocationDispatchInfo` and `topk_ids_logical_to_physical` in
`sglang/srt/eplb/expert_location_dispatch.py`, and `_biased_grouped_topk_postprocess` in
`sglang/srt/layers/moe/topk.py`.

The router chooses logical experts. Before the experts run, each choice is replaced by a physical expert:
the one of the rank's table, or a random one of those that are listed. The random numbers are a parameter.
Whatever they are, the physical expert holds the logical one (`Located.exists_dispatchId`), so the counts that
the recorder converts back are those of the router, for every placement and every dispatch
(`recorded_counts_eq_routed`).
-/

namespace MoeSpecialization.Eplb

open Py Filling Recorder

/-- `ExpertLocationDispatchInfo`. -/
structure ExpertLocationDispatchInfo where
  epDispatchAlgorithm : EpDispatchAlgorithm
  partialLogicalToRankDispatchPhysicalMap : Option (List ℤ)
  partialLogicalToAllPhysicalMap : List (List ℤ)
  partialLogicalToAllPhysicalMapNumValid : List ℕ
  numPhysicalExperts : ℕ

/-- `m[i, :]`. -/
def rowAt {α : Type} (m : Mat α) (i : ℕ) : Except Error (List α) :=
  if i < m.rows then .ok ((List.range m.cols).map (m.cell i)) else .error .indexError

/-- `t[i, :]`. -/
def layerAt {α : Type} (t : Tensor3 α) (i : ℕ) : Except Error (List (List α)) :=
  if i < t.dim0 then .ok ((List.range t.dim1).map fun j => (List.range t.dim2).map (t.cell i j))
  else .error .indexError

/-- `xs[i]`. -/
def itemAt {α : Type} (xs : List α) (i : ℤ) : Except Error α := do
  let i ← listIndex xs.length i
  match xs[i]? with
  | some x => return x
  | none => throw .indexError

/-- `d[i, :]` if there is a table. -/
def tableRowAt (d : Option (Mat ℤ)) (i : ℕ) : Except Error (Option (List ℤ)) :=
  match d with
  | none => .ok none
  | some d => do return some (← rowAt d i)

/-- `ExpertLocationDispatchInfo.init_new`. -/
def ExpertLocationDispatchInfo.initNew (epDispatchAlgorithm : Option EpDispatchAlgorithm)
    (metadata : Option ExpertLocationMetadata) (layerId : ℕ) : Except Error (Option ExpertLocationDispatchInfo) :=
  match metadata, epDispatchAlgorithm with
  | none, _ => .error .assertionError
  | some _, none => .ok none
  | some m, some algorithm => do
    let dispatch ← tableRowAt m.logicalToRankDispatchPhysicalMap layerId
    let all ← layerAt m.logicalToAllPhysicalMap layerId
    let numValid ← rowAt m.logicalToAllPhysicalMapNumValid layerId
    return some ⟨algorithm, dispatch, all, numValid, m.physicalToLogicalMap.cols⟩

/-- One entry of `_topk_ids_logical_to_physical_static`. -/
def dispatchStatic (info : ExpertLocationDispatchInfo) (id : ℤ) : Except Error ℤ :=
  match info.partialLogicalToRankDispatchPhysicalMap with
  | none => .error .typeError
  | some d => itemAt d id

/-- One entry of `_topk_ids_logical_to_physical_dynamic`, for the number that `torch.randint` drew. -/
def dispatchDynamic (info : ExpertLocationDispatchInfo) (draw : ℕ) (id : ℤ) : Except Error ℤ := do
  let numValid ← itemAt info.partialLogicalToAllPhysicalMapNumValid id
  if numValid = 0 then throw (.runtimeError "ZeroDivisionError")
  let row ← itemAt info.partialLogicalToAllPhysicalMap id
  itemAt row (draw % numValid : ℕ)

/-- One entry of `topk_ids_logical_to_physical`. -/
def dispatchId (info : ExpertLocationDispatchInfo) (draw : ℕ) (id : ℤ) : Except Error ℤ :=
  match info.epDispatchAlgorithm with
  | .static => dispatchStatic info id
  | .dynamic | .fake => dispatchDynamic info draw id

/-- `topk_ids_logical_to_physical`. -/
def topkIdsLogicalToPhysical (topkIds : Mat ℤ) (info : Option ExpertLocationDispatchInfo) (draws : ℕ → ℕ → ℕ) :
    Except Error (Mat ℤ) :=
  match info with
  | none => .ok topkIds
  | some info => do
    let rows ← (List.range topkIds.rows).mapM fun t => (List.range topkIds.cols).mapM fun k =>
      dispatchId info (draws t k) (topkIds.cell t k)
    return ⟨topkIds.rows, topkIds.cols, fun t k => (rows.getD t []).getD k 0⟩

/-- `_mask_topk_ids_padded_region`. -/
def maskTopkIdsPaddedRegion (topkIds : Mat ℤ) (numTokenNonPadded : Option ℕ) : Mat ℤ :=
  match numTokenNonPadded with
  | none => topkIds
  | some n => ⟨topkIds.rows, topkIds.cols, fun t k => if n ≤ t then -1 else topkIds.cell t k⟩

/-- What the router chooses in a layer, and the random numbers of the dispatch. -/
structure RoutedCall where
  layerIdx : ℕ
  topkIds : Mat ℤ
  draws : ℕ → ℕ → ℕ
  numTokenNonPadded : Option ℕ

/-- `on_select_experts` with these ids; the logits and the weights are not read for the counts. -/
def idsCall (layerIdx : ℕ) (topkIds : Mat ℤ) : SelectCall where
  layerIdx := layerIdx
  topkIds := topkIds
  logits_rows := fun _ h => absurd h (Option.not_mem_none _)
  weights_rows := fun _ h => absurd h (Option.not_mem_none _)
  weights_cols := fun _ h => absurd h (Option.not_mem_none _)

/-- The choice as it is recorded: dispatched, and without the padding. -/
def RoutedCall.select (c : RoutedCall) (epDispatchAlgorithm : Option EpDispatchAlgorithm)
    (metadata : ExpertLocationMetadata) : Except Error SelectCall := do
  let info ← ExpertLocationDispatchInfo.initNew epDispatchAlgorithm (some metadata) c.layerIdx
  let topkIds ← topkIdsLogicalToPhysical c.topkIds info c.draws
  return idsCall c.layerIdx (maskTopkIdsPaddedRegion topkIds c.numTokenNonPadded)

/-! ## The dispatched experts -/

section Located

variable {m : ExpertLocationMetadata} {numLayers numLogical numPhysical layer : ℕ} {live : ℕ → Set ℕ}

theorem itemAt_map_range {α : Type} (f : ℕ → α) {n i : ℕ} (hi : i < n) :
    itemAt ((List.range n).map f) (i : ℤ) = .ok (f i) := by
  rw [itemAt, listIndex, List.length_map, List.length_range, if_pos (by omega)]
  show (match ((List.range n).map f)[(i : ℤ).toNat]? with
    | some x => pure x
    | none => throw .indexError : Except Error α) = _
  rw [Int.toNat_natCast, List.getElem?_map, List.getElem?_range hi]
  rfl

/-- The information for a layer returns, and every choice of a logical expert is sent to a live physical
expert that holds it. -/
theorem ExpertLocationMetadata.Located.exists_dispatchId
    (h : m.Located numLayers numLogical numPhysical live) (hlayer : layer < numLayers)
    {algorithm : EpDispatchAlgorithm}
    (hstatic : algorithm = .static → m.logicalToRankDispatchPhysicalMap.isSome) :
    ∃ info, ExpertLocationDispatchInfo.initNew (some algorithm) (some m) layer = .ok (some info) ∧
      ∀ l < numLogical, ∀ draw, ∃ s ∈ live layer, dispatchId info draw (l : ℤ) = .ok (s : ℤ) ∧
        m.physicalToLogicalMap.cell layer s = l := by
  have hall : layerAt m.logicalToAllPhysicalMap layer = .ok ((List.range numLogical).map fun j =>
      (List.range numPhysical).map (m.logicalToAllPhysicalMap.cell layer j)) := by
    rw [layerAt, h.log.dim0_eq, if_pos hlayer, h.log.dim1_eq, h.log.dim2_eq]
  have hvalid : rowAt m.logicalToAllPhysicalMapNumValid layer = .ok ((List.range numLogical).map
      (m.logicalToAllPhysicalMapNumValid.cell layer)) := by
    rw [rowAt, h.valid.rows_eq, if_pos hlayer, h.valid.cols_eq]
  have hlocated := h.layer layer hlayer
  obtain ⟨dispatch, hdispatch, hrow⟩ : ∃ dispatch,
      tableRowAt m.logicalToRankDispatchPhysicalMap layer = .ok dispatch ∧
      (algorithm = .static → ∃ f : ℕ → ℤ, dispatch = some ((List.range numLogical).map f) ∧
        ∀ l < numLogical, ∃ k < m.logicalToAllPhysicalMapNumValid.cell layer l,
          f l = m.logicalToAllPhysicalMap.cell layer l k) := by
    rcases hd : m.logicalToRankDispatchPhysicalMap with _ | d
    · refine ⟨none, rfl, fun heq => ?_⟩
      have hsome := hstatic heq
      rw [hd] at hsome
      cases hsome
    · obtain ⟨hIs, hcell⟩ := h.dispatch d hd
      refine ⟨some ((List.range numLogical).map (d.cell layer)), ?_, fun _ => ⟨_, rfl, hcell layer hlayer⟩⟩
      rw [tableRowAt, rowAt, hIs.rows_eq, if_pos hlayer, hIs.cols_eq]
      rfl
  let info : ExpertLocationDispatchInfo := ⟨algorithm, dispatch, (List.range numLogical).map fun j =>
    (List.range numPhysical).map (m.logicalToAllPhysicalMap.cell layer j), (List.range numLogical).map
      (m.logicalToAllPhysicalMapNumValid.cell layer), m.physicalToLogicalMap.cols⟩
  refine ⟨info, ?_, fun l hl draw => ?_⟩
  · rw [ExpertLocationDispatchInfo.initNew, hdispatch, ok_bind, hall, ok_bind, hvalid]
    rfl
  have hsent {k : ℕ} (hk : k < m.logicalToAllPhysicalMapNumValid.cell layer l) :
      ∃ s ∈ live layer, m.logicalToAllPhysicalMap.cell layer l k = s ∧ m.physicalToLogicalMap.cell layer s = l :=
    hlocated.slot l hl k hk
  have hdynamic : ∃ k < m.logicalToAllPhysicalMapNumValid.cell layer l,
      dispatchDynamic info draw (l : ℤ) = .ok (m.logicalToAllPhysicalMap.cell layer l k) := by
    have hpos := hlocated.valid_pos l hl
    have hlt : draw % m.logicalToAllPhysicalMapNumValid.cell layer l <
        m.logicalToAllPhysicalMapNumValid.cell layer l := Nat.mod_lt _ hpos
    refine ⟨_, hlt, ?_⟩
    rw [dispatchDynamic, itemAt_map_range _ hl, ok_bind, if_neg hpos.ne']
    show ((itemAt _ _ >>= _) : Except Error _) = _
    rw [itemAt_map_range _ hl, ok_bind]
    exact itemAt_map_range _ (lt_of_lt_of_le hlt (hlocated.valid_le l hl))
  cases algorithm with
  | static =>
    obtain ⟨f, rfl, hf⟩ := hrow rfl
    obtain ⟨k, hk, hval⟩ := hf l hl
    obtain ⟨s, hs, hsval, hsl⟩ := hsent hk
    refine ⟨s, hs, ?_, hsl⟩
    show itemAt _ _ = _
    rw [itemAt_map_range _ hl, hval, hsval]
  | dynamic =>
    obtain ⟨k, hk, hval⟩ := hdynamic
    obtain ⟨s, hs, hsval, hsl⟩ := hsent hk
    exact ⟨s, hs, hval.trans (congrArg _ hsval), hsl⟩
  | fake =>
    obtain ⟨k, hk, hval⟩ := hdynamic
    obtain ⟨s, hs, hsval, hsl⟩ := hsent hk
    exact ⟨s, hs, hval.trans (congrArg _ hsval), hsl⟩

/-- The same for a whole tensor of choices. -/
theorem ExpertLocationMetadata.Located.exists_topkIds
    (h : m.Located numLayers numLogical numPhysical live) (hlayer : layer < numLayers)
    {algorithm : EpDispatchAlgorithm}
    (hstatic : algorithm = .static → m.logicalToRankDispatchPhysicalMap.isSome) {topkIds : Mat ℤ}
    (hids : ∀ t < topkIds.rows, ∀ k < topkIds.cols, 0 ≤ topkIds.cell t k ∧ topkIds.cell t k < numLogical)
    (draws : ℕ → ℕ → ℕ) :
    ∃ info physical, ExpertLocationDispatchInfo.initNew (some algorithm) (some m) layer = .ok (some info) ∧
      topkIdsLogicalToPhysical topkIds (some info) draws = .ok physical ∧
      (physical.rows = topkIds.rows ∧ physical.cols = topkIds.cols) ∧
      ∀ t < topkIds.rows, ∀ k < topkIds.cols, ∃ s ∈ live layer, physical.cell t k = s ∧
        m.physicalToLogicalMap.cell layer s = topkIds.cell t k := by
  obtain ⟨info, hinfo, hsent⟩ := h.exists_dispatchId hlayer hstatic
  have hcell (t : ℕ) (ht : t < topkIds.rows) (k : ℕ) (hk : k < topkIds.cols) : ∃ p : ℤ,
      dispatchId info (draws t k) (topkIds.cell t k) = .ok p ∧ ∃ s ∈ live layer, p = s ∧
        m.physicalToLogicalMap.cell layer s = topkIds.cell t k := by
    obtain ⟨hnonneg, hlt⟩ := hids t ht k hk
    obtain ⟨l, hl⟩ := Int.eq_ofNat_of_zero_le hnonneg
    rw [hl] at hlt ⊢
    obtain ⟨s, hs, hval, hsl⟩ := hsent l (Int.ofNat_lt.mp hlt) (draws t k)
    exact ⟨s, hval, s, hs, rfl, hsl⟩
  obtain ⟨rows, hrows, hspec⟩ := exists_rows [] fun t ht => exists_rows (0 : ℤ) (hcell t ht)
  refine ⟨info, ⟨topkIds.rows, topkIds.cols, fun t k => (rows.getD t []).getD k 0⟩, hinfo, ?_, ⟨rfl, rfl⟩, hspec⟩
  rw [topkIdsLogicalToPhysical, hrows]
  rfl

end Located

/-! ## The recorded counts -/

section Counts

theorem flatten_map {u v : Mat ℤ} {g : ℤ → ℤ} (hrows : v.rows = u.rows) (hcols : v.cols = u.cols)
    (h : ∀ t < u.rows, ∀ k < u.cols, g (v.cell t k) = u.cell t k) : v.flatten.map g = u.flatten := by
  rw [Mat.flatten, Mat.flatten, List.map_flatMap, hrows, hcols]
  refine List.flatMap_congr fun t ht => ?_
  rw [List.map_map]
  exact List.map_congr_left fun k hk => h t (List.mem_range.mp ht) k (List.mem_range.mp hk)

/-- The logical expert of an id of the recording. -/
def recordedLogical (phy2log : ℕ → ℤ) (id : ℤ) : ℤ := if id = -1 then -1 else phy2log id.toNat

/-- Counting the logical experts is counting all of their physical ones. -/
theorem sum_count_physical {phy2log : ℕ → ℤ} {numPhysical : ℕ} {ids : List ℤ}
    (hids : ∀ id ∈ ids, id = -1 ∨ 0 ≤ id ∧ id < numPhysical) (e : ℕ) :
    ∑ p ∈ Finset.univ.filter (fun p : Fin numPhysical => phy2log p = (e : ℤ)),
        (ids.count ((p : ℕ) : ℤ) : ℤ) =
      (ids.map (recordedLogical phy2log)).count (e : ℤ) := by
  induction ids with
  | nil => simp
  | cons id ids ih =>
    have ih := ih fun i hi => hids i (List.mem_cons_of_mem _ hi)
    rw [List.map_cons, List.count_cons, Nat.cast_add, ← ih]
    simp only [List.count_cons, Nat.cast_add]
    rw [Finset.sum_add_distrib]
    congr 1
    rcases hids id List.mem_cons_self with rfl | ⟨hnonneg, hlt⟩
    · have hneg : recordedLogical phy2log (-1) = -1 := if_pos rfl
      rw [hneg, Finset.sum_eq_zero fun p _ => ?_]
      · rw [if_neg (by simp)]
        rfl
      · rw [if_neg (by simp)]
        rfl
    · obtain ⟨s, rfl⟩ := Int.eq_ofNat_of_zero_le hnonneg
      have hs : s < numPhysical := Int.ofNat_lt.mp hlt
      have hlogical : recordedLogical phy2log (s : ℤ) = phy2log s := by
        rw [recordedLogical, if_neg (by omega), Int.toNat_natCast]
      rw [hlogical, Finset.sum_filter, Finset.sum_eq_single (⟨s, hs⟩ : Fin numPhysical)]
      · by_cases hse : phy2log s = (e : ℤ)
        · simp [hse]
        · simp [hse]
      · intro p _ hp
        have hne : ¬(s : ℤ) = ((p : ℕ) : ℤ) := fun heq => hp (Fin.ext (Int.natCast_inj.mp heq).symm)
        simp [hne]
      · intro hmem
        exact absurd (Finset.mem_univ _) hmem

/-- How often the router chose an expert of a layer, padding apart. -/
def routerCounts (calls : List RoutedCall) (layer e : ℕ) : ℕ :=
  (calls.map fun c => if c.layerIdx = layer then
    (maskTopkIdsPaddedRegion c.topkIds c.numTokenNonPadded).flatten.count (e : ℤ) else 0).sum

/-- The calls of the router that an expert location can serve. -/
def RoutedCall.Valid (c : RoutedCall) (numLayers numLogical : ℕ) : Prop :=
  c.layerIdx < numLayers ∧
    ∀ t < c.topkIds.rows, ∀ k < c.topkIds.cols, 0 ≤ c.topkIds.cell t k ∧ c.topkIds.cell t k < numLogical

variable {m : ExpertLocationMetadata} {cfg : RecorderConfig} {live : ℕ → Set ℕ} {algorithm : EpDispatchAlgorithm}

/-- The step lemma: a call is recorded with ids in range, and adds to the physical experts of a logical one
what the router chose. -/
theorem ExpertLocationMetadata.Located.exists_select
    (h : m.Located cfg.numLayers cfg.numLogicalExperts cfg.numPhysicalExperts live)
    (hstatic : algorithm = .static → m.logicalToRankDispatchPhysicalMap.isSome) {c : RoutedCall}
    (hc : c.Valid cfg.numLayers cfg.numLogicalExperts) :
    ∃ call, c.select (some algorithm) m = .ok call ∧ call.layerIdx = c.layerIdx ∧ call.IdsInRange cfg ∧
      ∀ e : ℕ, ∑ p ∈ Finset.univ.filter (fun p : Fin cfg.numPhysicalExperts =>
          m.physicalToLogicalMap.cell c.layerIdx p = (e : ℤ)),
          (call.topkIds.flatten.count ((p : ℕ) : ℤ) : ℤ) =
        (maskTopkIdsPaddedRegion c.topkIds c.numTokenNonPadded).flatten.count (e : ℤ) := by
  obtain ⟨info, physical, hinfo, hphysical, ⟨hrows, hcols⟩, hcell⟩ := h.exists_topkIds hc.1 hstatic hc.2 c.draws
  have hmasked (t : ℕ) (ht : t < c.topkIds.rows) (k : ℕ) (hk : k < c.topkIds.cols) :
      recordedLogical (m.physicalToLogicalMap.cell c.layerIdx)
          ((maskTopkIdsPaddedRegion physical c.numTokenNonPadded).cell t k) =
        (maskTopkIdsPaddedRegion c.topkIds c.numTokenNonPadded).cell t k ∧
      ((maskTopkIdsPaddedRegion physical c.numTokenNonPadded).cell t k = -1 ∨
        0 ≤ (maskTopkIdsPaddedRegion physical c.numTokenNonPadded).cell t k ∧
          (maskTopkIdsPaddedRegion physical c.numTokenNonPadded).cell t k < cfg.numPhysicalExperts) := by
    obtain ⟨s, hs, hval, hsl⟩ := hcell t ht k hk
    have hlt : s < cfg.numPhysicalExperts := (h.layer _ hc.1).live_lt s hs
    have hsent : recordedLogical (m.physicalToLogicalMap.cell c.layerIdx) (physical.cell t k) =
        c.topkIds.cell t k ∧ (physical.cell t k = -1 ∨
          0 ≤ physical.cell t k ∧ physical.cell t k < cfg.numPhysicalExperts) := by
      rw [hval, recordedLogical, if_neg (by omega), Int.toNat_natCast]
      exact ⟨hsl, .inr ⟨Int.natCast_nonneg s, Int.ofNat_lt.mpr hlt⟩⟩
    rcases hpad : c.numTokenNonPadded with _ | n
    · exact hsent
    · by_cases hn : n ≤ t
      · simp only [maskTopkIdsPaddedRegion, if_pos hn, recordedLogical, if_true, true_or, and_self]
      · simp only [maskTopkIdsPaddedRegion, if_neg hn]
        exact hsent
  have hshape (x : Mat ℤ) : (maskTopkIdsPaddedRegion x c.numTokenNonPadded).rows = x.rows ∧
      (maskTopkIdsPaddedRegion x c.numTokenNonPadded).cols = x.cols := by
    rcases c.numTokenNonPadded with _ | n
    · exact ⟨rfl, rfl⟩
    · exact ⟨rfl, rfl⟩
  have hids : ∀ id ∈ (maskTopkIdsPaddedRegion physical c.numTokenNonPadded).flatten,
      id = -1 ∨ 0 ≤ id ∧ id < cfg.numPhysicalExperts := by
    intro id hid
    obtain ⟨t, ht, hid⟩ := List.mem_flatMap.mp hid
    obtain ⟨k, hk, rfl⟩ := List.mem_map.mp hid
    have ht := List.mem_range.mp ht
    have hk := List.mem_range.mp hk
    rw [(hshape physical).1, hrows] at ht
    rw [(hshape physical).2, hcols] at hk
    exact (hmasked t ht k hk).2
  refine ⟨idsCall c.layerIdx (maskTopkIdsPaddedRegion physical c.numTokenNonPadded), ?_, rfl, hids, fun e => ?_⟩
  · rw [RoutedCall.select, hinfo, ok_bind, hphysical]
    rfl
  · refine (sum_count_physical hids e).trans ?_
    refine congrArg (fun l : List ℤ => ((l.count (e : ℤ) : ℕ) : ℤ)) (flatten_map ?_ ?_ fun t ht k hk => ?_)
    · rw [(hshape physical).1, (hshape c.topkIds).1, hrows]
    · rw [(hshape physical).2, (hshape c.topkIds).2, hcols]
    · rw [(hshape c.topkIds).1] at ht
      rw [(hshape c.topkIds).2] at hk
      exact (hmasked t ht k hk).1

/-- The run lemma, over the calls of a pass. -/
theorem ExpertLocationMetadata.Located.exists_selected
    (h : m.Located cfg.numLayers cfg.numLogicalExperts cfg.numPhysicalExperts live)
    (hstatic : algorithm = .static → m.logicalToRankDispatchPhysicalMap.isSome) {calls : List RoutedCall}
    (hcalls : ∀ c ∈ calls, c.Valid cfg.numLayers cfg.numLogicalExperts) :
    ∃ selected, calls.mapM (fun c => c.select (some algorithm) m) = .ok selected ∧
      (∀ c ∈ selected, c.layerIdx < cfg.numLayers ∧ c.IdsInRange cfg) ∧
      ∀ l e : ℕ, ∑ p ∈ Finset.univ.filter (fun p : Fin cfg.numPhysicalExperts =>
          m.physicalToLogicalMap.cell l p = (e : ℤ)), (routedSlots selected l p : ℤ) = routerCounts calls l e := by
  induction calls with
  | nil =>
    refine ⟨[], rfl, fun c hc => absurd hc List.not_mem_nil, fun l e => ?_⟩
    exact Finset.sum_eq_zero fun p _ => rfl
  | cons c calls ih =>
    obtain ⟨selected, hselected, hrange, hsum⟩ := ih fun c hc => hcalls c (List.mem_cons_of_mem _ hc)
    obtain ⟨call, hcall, hlayer, hids, hcount⟩ := h.exists_select hstatic (hcalls c List.mem_cons_self)
    refine ⟨call :: selected, ?_, fun c' hc' => ?_, fun l e => ?_⟩
    · rw [List.mapM_cons, hcall, ok_bind, hselected]
      rfl
    · rcases List.mem_cons.mp hc' with rfl | hc'
      · exact ⟨hlayer ▸ (hcalls c List.mem_cons_self).1, hids⟩
      · exact hrange c' hc'
    · have hslots (p : ℕ) : (routedSlots (call :: selected) l p : ℤ) =
          (if c.layerIdx = l then (call.topkIds.flatten.count (p : ℤ) : ℤ) else 0) + routedSlots selected l p := by
        rw [routedSlots, List.map_cons, List.sum_cons, hlayer, Nat.cast_add, Nat.cast_ite]
        rfl
      have hrouter : routerCounts (c :: calls) l e = (if c.layerIdx = l then
          (maskTopkIdsPaddedRegion c.topkIds c.numTokenNonPadded).flatten.count (e : ℤ) else 0) +
          routerCounts calls l e := by
        rw [routerCounts, List.map_cons, List.sum_cons]
        rfl
      rw [Finset.sum_congr rfl fun (p : Fin cfg.numPhysicalExperts) _ => hslots p, Finset.sum_add_distrib, hsum l e,
        hrouter, Nat.cast_add]
      congr 1
      by_cases hl : c.layerIdx = l
      · subst hl
        simp only [if_true]
        exact hcount e
      · simp only [if_neg hl, Finset.sum_const_zero, Nat.cast_zero]

/-- The sizes of the statistics of a recorder. -/
def statConfig (cfg : RecorderConfig) (bufferSize : ℤ) : StatConfig :=
  ⟨cfg.numLayers, cfg.numPhysicalExperts, cfg.numLogicalExperts, bufferSize⟩

/-- For every placement, every dispatch and every random number: what a pass records, converted to logical
experts, is how often the router chose each of them, padding apart. -/
theorem recorded_counts_eq_routed (bufferSize : ℤ)
    (h : m.Located cfg.numLayers cfg.numLogicalExperts cfg.numPhysicalExperts live)
    (hstatic : algorithm = .static → m.logicalToRankDispatchPhysicalMap.isSome)
    (hpos : 0 < cfg.numPhysicalExperts) {calls : List RoutedCall}
    (hcalls : ∀ c ∈ calls, c.Valid cfg.numLayers cfg.numLogicalExperts) :
    ∃ selected s, calls.mapM (fun c => c.select (some algorithm) m) = .ok selected ∧
      (countPass selected).run (SelectExpertsGatherer.init cfg) = .ok () s ∧
      @convertGlobalPhysicalCountToLogicalCount (statConfig cfg bufferSize)
          [fun l p => (s.data.cell l p : ℤ)] (fun l p => m.physicalToLogicalMap.cell l p) =
        .ok [fun l e => (routerCounts calls l e : ℤ)] := by
  obtain ⟨selected, hselected, hrange, hsum⟩ := h.exists_selected hstatic hcalls
  refine ⟨selected, _, hselected, run_countPass rfl rfl hpos (fun c hc => (hrange c hc).1)
    fun c hc => (hrange c hc).2, ?_⟩
  rw [convertGlobalPhysicalCountToLogicalCount, if_pos]
  · refine congrArg Except.ok (congrArg (fun f => [f]) ?_)
    funext l e
    exact (scatterAdd_eq_sum _ _ e).trans (hsum l e)
  · exact .inr fun l p => (h.layer l l.isLt).logical p p.isLt

/-- A token for each of two experts, and one that is padding. -/
def sampleCall : RoutedCall := ⟨0, ⟨3, 1, fun t _ => if t = 0 then 1 else 0⟩, fun t k => t + k, some 2⟩

theorem sampleCall_valid : sampleCall.Valid 1 2 := ⟨by decide, by decide⟩

/-- The recorder of the two ranks. -/
def sampleRecorder : RecorderConfig := ⟨1, 2, 4, [[0, 1, 0, 1]], 0, 1, Nat.one_pos⟩

theorem recorded_counts_eq_routed_sample : ∃ m selected s,
    initTrivial Random.identity sampleArgs (some sampleConfig) 0 0 = .ok (some m) ∧
      [sampleCall].mapM (fun c => c.select (some .dynamic) m) = .ok selected ∧
      (countPass selected).run (SelectExpertsGatherer.init sampleRecorder) = .ok () s ∧
      @convertGlobalPhysicalCountToLogicalCount (statConfig sampleRecorder 1)
          [fun l p => (s.data.cell l p : ℤ)] (fun l p => m.physicalToLogicalMap.cell l p) =
        .ok [fun _ _ => 1] := by
  obtain ⟨log2phy, table, hshared, -⟩ := exists_initByMapping Random.identity sample_fits
    (completeMapping_trivial sample_fits) (some 0)
  obtain ⟨m, hm, hlocated, -⟩ := hshared.built 0
  obtain ⟨selected, s, hselected, hs, hcounts⟩ := @recorded_counts_eq_routed m sampleRecorder _ .dynamic 1 hlocated
    (fun h => by cases h) (by decide) [sampleCall] (List.forall_mem_singleton.mpr sampleCall_valid)
  refine ⟨m, selected, s, (initTrivial_eq _ sample_fits 0 0).trans hm, hselected, hs, hcounts.trans ?_⟩
  refine congrArg (fun f => Except.ok [f]) ?_
  funext l e
  revert l e
  decide

end Counts

end MoeSpecialization.Eplb
