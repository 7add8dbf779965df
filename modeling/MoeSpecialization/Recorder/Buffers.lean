import MoeSpecialization.Recorder.Run

/-!
# The buffers of the per-token gatherer over a pass

Reference: `_DetailSinglePassGatherer.reset`, `on_select_experts` and `collect` in
`sglang/srt/eplb/expert_distribution.py`.

The buffers outlive the passes: a pass starts on whatever earlier passes left, at the width they grew it
to. `PassCells` says what every cell holds after the calls of a pass. The top-k weights are what was
written last, or `0`. The ids of the columns that a growth added are `0` where nothing was written, and
the logits of the calls before the last growth are gone. Hence a pass returns what was recorded exactly
when its calls cover the added columns and lose no logit (`recorded_cells_iff`).
-/

namespace MoeSpecialization.Recorder

open Py

/-! ## Calls and passes -/

/-- A call of `on_select_experts` by `select_experts`: the router logits have a row for every token, the
top-k weights a value for every id. -/
structure SelectCall where
  layerIdx : ℕ
  topkIds : Mat ℤ
  routerLogits : Option (Mat ℚ) := none
  topkWeights : Option (Mat ℚ) := none
  logits_rows : ∀ m ∈ routerLogits, m.rows = topkIds.rows
  weights_rows : ∀ m ∈ topkWeights, m.rows = topkIds.rows
  weights_cols : ∀ m ∈ topkWeights, m.cols = topkIds.cols

section

variable (cfg : RecorderConfig)

/-- The call on the gatherer. -/
def SelectCall.run (c : SelectCall) : PyM Gatherer Unit :=
  Gatherer.onSelectExperts cfg c.layerIdx c.topkIds c.routerLogits c.topkWeights

/-- The calls that the recorder makes on its gatherer. -/
inductive GathererCall where
  | reset
  | forwardPassStart (batch : ForwardBatch)
  | selectExperts (call : SelectCall)
  | deepepDispatchNormal (obj : MiscObject)

/-- The statement of a call. -/
def GathererCall.run : GathererCall → PyM Gatherer Unit
  | .reset => modify Gatherer.reset
  | .forwardPassStart batch => Gatherer.onForwardPassStart batch
  | .selectExperts call => call.run cfg
  | .deepepDispatchNormal obj => Gatherer.onDeepepDispatchNormal obj

/-- The gatherer after any calls. A call that raises leaves what it wrote. -/
def gathererAfter (history : List GathererCall) : Gatherer :=
  history.foldl (fun g c => PyM.final (c.run cfg) g) (.init cfg)

/-- A forward pass on the gatherer: `_on_forward_pass_start`, then the calls of its layers. -/
def recordPass (batch : ForwardBatch) (calls : List SelectCall) : PyM Gatherer Unit := do
  modify Gatherer.reset
  Gatherer.onForwardPassStart batch
  calls.forM (SelectCall.run cfg)

/-- The number of rows of the buffers. -/
def RecorderConfig.bufferRows (cfg : RecorderConfig) : ℕ := cfg.chunkedPrefillSize * 8

/-- The shapes of the buffers. Ids and weights have the same width. -/
structure Gatherer.Shaped (g : Gatherer) : Prop where
  ids_dim0 : g.topkIdsOfLayer.dim0 = cfg.numLayers
  ids_dim1 : g.topkIdsOfLayer.dim1 = cfg.bufferRows
  logits_dim0 : g.routerLogitsOfLayer.dim0 = cfg.numLayers
  logits_dim1 : g.routerLogitsOfLayer.dim1 = cfg.bufferRows
  logits_dim2 : g.routerLogitsOfLayer.dim2 = cfg.numLogicalExperts
  weights_dim0 : g.topkWeightsOfLayer.dim0 = cfg.numLayers
  weights_dim1 : g.topkWeightsOfLayer.dim1 = cfg.bufferRows
  weights_dim2 : g.topkWeightsOfLayer.dim2 = g.topkIdsOfLayer.dim2
  width_pos : 0 < g.topkIdsOfLayer.dim2

end

variable {cfg : RecorderConfig}

/-! ## What a call stores -/

/-- The router logits that a call records: none if they are wider than their buffer. -/
def SelectCall.logitsBlock (numLogicalExperts : ℕ) (c : SelectCall) : Option (Mat ℚ) :=
  c.routerLogits.filter (·.cols ≤ numLogicalExperts)

/-- The gatherer after a call that returns. -/
def SelectCall.stored (cfg : RecorderConfig) (c : SelectCall) (g : Gatherer) : Gatherer :=
  let g := g.grow cfg c.topkIds.cols
  { g with
    topkIdsOfLayer := g.topkIdsOfLayer.withBlock c.layerIdx c.topkIds
    routerLogitsOfLayer := ((c.logitsBlock cfg.numLogicalExperts).map
      (g.routerLogitsOfLayer.withBlock c.layerIdx)).getD g.routerLogitsOfLayer
    topkWeightsOfLayer := (c.topkWeights.map
      (g.topkWeightsOfLayer.withBlock c.layerIdx)).getD g.topkWeightsOfLayer }

theorem Gatherer.grow_dim2 (g : Gatherer) (actualTopK : ℕ) :
    (g.grow cfg actualTopK).topkIdsOfLayer.dim2 = max g.topkIdsOfLayer.dim2 actualTopK := by
  unfold Gatherer.grow
  split
  · rename_i hlt
    exact (Nat.max_eq_right hlt.le).symm
  · rename_i hge
    exact (Nat.max_eq_left (not_lt.mp hge)).symm

namespace Gatherer.Shaped

variable {g : Gatherer} (h : g.Shaped cfg)

include h

theorem reset : g.reset.Shaped cfg := { h with }

theorem grow (actualTopK : ℕ) : (g.grow cfg actualTopK).Shaped cfg := by
  unfold Gatherer.grow
  split
  · rename_i hlt
    exact { h with
      logits_dim0 := rfl
      logits_dim2 := rfl
      weights_dim2 := rfl
      width_pos := Nat.zero_lt_of_lt hlt }
  · exact h

theorem stored (c : SelectCall) : (c.stored cfg g).Shaped cfg := by
  have hgrow := h.grow c.topkIds.cols
  unfold SelectCall.stored
  refine { hgrow with logits_dim0 := ?_, logits_dim1 := ?_, logits_dim2 := ?_, weights_dim0 := ?_,
                      weights_dim1 := ?_, weights_dim2 := ?_ }
  · cases c.logitsBlock cfg.numLogicalExperts <;> exact hgrow.logits_dim0
  · cases c.logitsBlock cfg.numLogicalExperts <;> exact hgrow.logits_dim1
  · cases c.logitsBlock cfg.numLogicalExperts <;> exact hgrow.logits_dim2
  · cases c.topkWeights <;> exact hgrow.weights_dim0
  · cases c.topkWeights <;> exact hgrow.weights_dim1
  · cases c.topkWeights <;> exact hgrow.weights_dim2

end Gatherer.Shaped

/-- A slice assignment either raises and leaves the state, or updates it with the new buffer. -/
theorem final_setBlock {α : Type} {P : Gatherer → Prop} {g : Gatherer} {t : Tensor3 α} {layerIdx : ℕ}
    {m : Mat α} {upd : Tensor3 α → Gatherer} (hg : P g) (hupd : P (upd (t.withBlock layerIdx m))) :
    P (PyM.final (PyM.ofExcept (t.setBlock layerIdx m) >>= fun t => set (upd t) : PyM Gatherer PUnit)
      g) := by
  cases hset : t.setBlock layerIdx m with
  | error e => exact hg
  | ok t' =>
    obtain ⟨-, rfl⟩ := Tensor3.setBlock_eq_ok.mp hset
    exact hupd

theorem Gatherer.writeTopkIds_shaped (layerIdx : ℕ) (m : Mat ℤ) :
    PyM.Preserves (fun g g' => g.Shaped cfg → g'.Shaped cfg) (Gatherer.writeTopkIds layerIdx m) := by
  apply PyM.preserves_get_bind
  intro g hg
  exact final_setBlock hg { hg with }

theorem Gatherer.writeRouterLogits_shaped (layerIdx : ℕ) (m : Mat ℚ) :
    PyM.Preserves (fun g g' => g.Shaped cfg → g'.Shaped cfg)
      (Gatherer.writeRouterLogits layerIdx m) := by
  apply PyM.preserves_get_bind
  intro g hg
  split
  · exact final_setBlock hg { hg with }
  · exact hg

theorem Gatherer.writeTopkWeights_shaped (layerIdx : ℕ) (m : Mat ℚ) :
    PyM.Preserves (fun g g' => g.Shaped cfg → g'.Shaped cfg)
      (Gatherer.writeTopkWeights layerIdx m) := by
  apply PyM.preserves_get_bind
  intro g hg
  exact final_setBlock hg { hg with }

theorem Gatherer.onSelectExperts_shaped (layerIdx : ℕ) (topkIds : Mat ℤ)
    (routerLogits topkWeights : Option (Mat ℚ)) :
    PyM.Preserves (fun g g' => g.Shaped cfg → g'.Shaped cfg)
      (Gatherer.onSelectExperts cfg layerIdx topkIds routerLogits topkWeights) := by
  have hrefl : ∀ g : Gatherer, g.Shaped cfg → g.Shaped cfg := fun _ h => h
  have htrans : ∀ a b c : Gatherer, (a.Shaped cfg → b.Shaped cfg) → (b.Shaped cfg → c.Shaped cfg) →
      a.Shaped cfg → c.Shaped cfg := fun _ _ _ hab hbc h => hbc (hab h)
  refine PyM.preserves_bind htrans (PyM.preserves_modify fun g hg => hg.grow _) fun _ => ?_
  refine PyM.preserves_bind htrans (Gatherer.writeTopkIds_shaped _ _) fun _ => ?_
  refine PyM.preserves_bind htrans ?_ fun _ => ?_
  · exact PyM.preserves_forM hrefl htrans fun m _ => Gatherer.writeRouterLogits_shaped _ m
  · exact PyM.preserves_forM hrefl htrans fun m _ => Gatherer.writeTopkWeights_shaped _ m

theorem GathererCall.run_shaped (c : GathererCall) :
    PyM.Preserves (fun g g' => g.Shaped cfg → g'.Shaped cfg) (c.run cfg) := by
  have hrefl : ∀ g : Gatherer, g.Shaped cfg → g.Shaped cfg := fun _ h => h
  have htrans : ∀ a b c : Gatherer, (a.Shaped cfg → b.Shaped cfg) → (b.Shaped cfg → c.Shaped cfg) →
      a.Shaped cfg → c.Shaped cfg := fun _ _ _ hab hbc h => hbc (hab h)
  cases c with
  | reset => exact PyM.preserves_modify fun g hg => hg.reset
  | forwardPassStart batch =>
    apply PyM.preserves_get_bind
    intro g
    refine PyM.preserves_bind htrans (PyM.preserves_check hrefl _) (fun _ => ?_) g
    exact PyM.preserves_modify fun g hg => { hg with }
  | selectExperts call => exact Gatherer.onSelectExperts_shaped _ _ _ _
  | deepepDispatchNormal obj => exact PyM.preserves_modify fun g hg => { hg with }

theorem shaped_init (cfg : RecorderConfig) : (Gatherer.init cfg).Shaped cfg :=
  ⟨rfl, rfl, rfl, rfl, rfl, rfl, rfl, rfl, Nat.succ_pos 7⟩

/-- The shapes hold after any calls. -/
theorem shaped_gathererAfter (cfg : RecorderConfig) (history : List GathererCall) :
    (gathererAfter cfg history).Shaped cfg := by
  have hinit := shaped_init cfg
  rw [gathererAfter]
  generalize Gatherer.init cfg = g at hinit
  induction history generalizing g with
  | nil => exact hinit
  | cons c history ih => exact ih _ (c.run_shaped g hinit)

/-! ## What a call stores -/

section Run

variable {g g' : Gatherer} {c : SelectCall}

/-- A slice assignment of a buffer, as a statement. -/
theorem run_setBlock {α : Type} {t : Tensor3 α} {layerIdx : ℕ} {m : Mat α}
    {upd : Tensor3 α → Gatherer} {u : PUnit} :
    ((PyM.ofExcept (t.setBlock layerIdx m) >>= fun t => set (upd t) : PyM Gatherer PUnit)).run g =
        .ok u g' ↔
      (layerIdx < t.dim0 ∧ m.rows ≤ t.dim1 ∧ m.cols ≤ t.dim2) ∧ upd (t.withBlock layerIdx m) = g' := by
  rw [PyM.run_bind_eq_ok]
  simp only [PyM.run_ofExcept_eq_ok, Tensor3.setBlock_eq_ok]
  constructor
  · rintro ⟨t', s, ⟨⟨hfit, rfl⟩, rfl⟩, hset⟩
    cases hset
    exact ⟨hfit, rfl⟩
  · rintro ⟨hfit, rfl⟩
    exact ⟨_, g, ⟨⟨hfit, rfl⟩, rfl⟩, rfl⟩

theorem run_writeTopkIds {layerIdx : ℕ} {m : Mat ℤ} {u : Unit} :
    (Gatherer.writeTopkIds layerIdx m).run g = .ok u g' ↔
      (layerIdx < g.topkIdsOfLayer.dim0 ∧ m.rows ≤ g.topkIdsOfLayer.dim1 ∧
        m.cols ≤ g.topkIdsOfLayer.dim2) ∧
      { g with topkIdsOfLayer := g.topkIdsOfLayer.withBlock layerIdx m } = g' :=
  run_setBlock

theorem run_writeTopkWeights {layerIdx : ℕ} {m : Mat ℚ} {u : Unit} :
    (Gatherer.writeTopkWeights layerIdx m).run g = .ok u g' ↔
      (layerIdx < g.topkWeightsOfLayer.dim0 ∧ m.rows ≤ g.topkWeightsOfLayer.dim1 ∧
        m.cols ≤ g.topkWeightsOfLayer.dim2) ∧
      { g with topkWeightsOfLayer := g.topkWeightsOfLayer.withBlock layerIdx m } = g' :=
  run_setBlock

theorem run_writeRouterLogits {layerIdx : ℕ} {m : Mat ℚ} (hrows : m.rows ≤ g.routerLogitsOfLayer.dim1)
    (hlayer : layerIdx < g.routerLogitsOfLayer.dim0) :
    (Gatherer.writeRouterLogits layerIdx m).run g = .ok () { g with
      routerLogitsOfLayer := (((some m).filter (·.cols ≤ g.routerLogitsOfLayer.dim2)).map
        (g.routerLogitsOfLayer.withBlock layerIdx)).getD g.routerLogitsOfLayer } := by
  rw [Gatherer.writeRouterLogits, PyM.run_bind_of_ok (PyM.run_get g)]
  by_cases hcols : m.cols ≤ g.routerLogitsOfLayer.dim2
  · rw [if_pos hcols]
    refine run_setBlock.mpr ⟨⟨hlayer, hrows, hcols⟩, ?_⟩
    simp [Option.filter, hcols]
  · rw [if_neg hcols]
    simp [Option.filter, hcols]

/-- The statement for router logits that may be missing. -/
theorem run_recordRouterLogits {layerIdx : ℕ} {m : Option (Mat ℚ)}
    (hrows : ∀ m' ∈ m, m'.rows ≤ g.routerLogitsOfLayer.dim1)
    (hlayer : layerIdx < g.routerLogitsOfLayer.dim0) :
    (m.toList.forM (Gatherer.writeRouterLogits layerIdx)).run g = .ok () { g with
      routerLogitsOfLayer := ((m.filter (·.cols ≤ g.routerLogitsOfLayer.dim2)).map
        (g.routerLogitsOfLayer.withBlock layerIdx)).getD g.routerLogitsOfLayer } := by
  cases m with
  | none => rfl
  | some m =>
    show (Gatherer.writeRouterLogits layerIdx m >>= fun _ => pure ()).run g = _
    rw [PyM.run_bind_of_ok (run_writeRouterLogits (hrows m rfl) hlayer)]
    rfl

/-- The statement for top-k weights that may be missing. -/
theorem run_recordTopkWeights {layerIdx : ℕ} {m : Option (Mat ℚ)}
    (hfit : ∀ m' ∈ m, layerIdx < g.topkWeightsOfLayer.dim0 ∧ m'.rows ≤ g.topkWeightsOfLayer.dim1 ∧
      m'.cols ≤ g.topkWeightsOfLayer.dim2) :
    (m.toList.forM (Gatherer.writeTopkWeights layerIdx)).run g = .ok () { g with
      topkWeightsOfLayer := (m.map (g.topkWeightsOfLayer.withBlock layerIdx)).getD
        g.topkWeightsOfLayer } := by
  cases m with
  | none => rfl
  | some m =>
    show (Gatherer.writeTopkWeights layerIdx m >>= fun _ => pure ()).run g = _
    rw [PyM.run_bind_of_ok ((run_writeTopkWeights (u := ())).mpr ⟨hfit m rfl, rfl⟩)]
    rfl

/-- A call whose rows fit stores its blocks. -/
theorem SelectCall.run_of_fits (hg : g.Shaped cfg) (hlayer : c.layerIdx < cfg.numLayers)
    (hrows : c.topkIds.rows ≤ cfg.bufferRows) : (c.run cfg).run g = .ok () (c.stored cfg g) := by
  have hgrow := hg.grow c.topkIds.cols
  have hwidth := @Gatherer.grow_dim2 cfg g c.topkIds.cols
  rw [SelectCall.run, Gatherer.onSelectExperts, PyM.run_bind_of_ok (PyM.run_modify _ _),
    SelectCall.stored, SelectCall.logitsBlock, ← hgrow.logits_dim2]
  generalize g.grow cfg c.topkIds.cols = g₁ at hgrow hwidth
  have hids : c.layerIdx < g₁.topkIdsOfLayer.dim0 ∧ c.topkIds.rows ≤ g₁.topkIdsOfLayer.dim1 ∧
      c.topkIds.cols ≤ g₁.topkIdsOfLayer.dim2 := by
    rw [hgrow.ids_dim0, hgrow.ids_dim1]
    omega
  have hlogits : ∀ m ∈ c.routerLogits, m.rows ≤ g₁.routerLogitsOfLayer.dim1 := by
    intro m hm
    rw [c.logits_rows m hm, hgrow.logits_dim1]
    exact hrows
  have hweights : ∀ m ∈ c.topkWeights, c.layerIdx < g₁.topkWeightsOfLayer.dim0 ∧
      m.rows ≤ g₁.topkWeightsOfLayer.dim1 ∧ m.cols ≤ g₁.topkWeightsOfLayer.dim2 := by
    intro m hm
    rw [hgrow.weights_dim0, hgrow.weights_dim1, hgrow.weights_dim2, c.weights_rows m hm,
      c.weights_cols m hm]
    omega
  -- each statement leaves the buffers of the others alone, so its bounds are those of the grown buffers
  rw [PyM.run_bind_of_ok ((run_writeTopkIds (u := ())).mpr ⟨hids, rfl⟩)]
  refine (PyM.run_bind_of_ok (run_recordRouterLogits ?_ ?_)).trans ?_
  · exact hlogits
  · show c.layerIdx < g₁.routerLogitsOfLayer.dim0
    rw [hgrow.logits_dim0]
    exact hlayer
  · exact run_recordTopkWeights hweights

/-- A call on a layer of the model returns exactly if its rows fit, and then stores its blocks. -/
theorem SelectCall.run_eq_ok (hg : g.Shaped cfg) (hlayer : c.layerIdx < cfg.numLayers) :
    (c.run cfg).run g = .ok () g' ↔ c.topkIds.rows ≤ cfg.bufferRows ∧ c.stored cfg g = g' := by
  constructor
  · intro hrun
    have hrows : c.topkIds.rows ≤ cfg.bufferRows := by
      have hrun' := hrun
      rw [SelectCall.run, Gatherer.onSelectExperts, PyM.run_bind_of_ok (PyM.run_modify _ _)] at hrun'
      obtain ⟨u, s, hids, -⟩ := PyM.run_bind_eq_ok.mp hrun'
      rw [← (hg.grow c.topkIds.cols).ids_dim1]
      exact (run_writeTopkIds.mp hids).1.2.1
    rw [SelectCall.run_of_fits hg hlayer hrows] at hrun
    cases hrun
    exact ⟨hrows, rfl⟩
  · rintro ⟨hrows, rfl⟩
    exact SelectCall.run_of_fits hg hlayer hrows

end Run

/-! ## What the calls of a pass write -/

/-- The last value that some calls write to a cell. `block` is what a call writes to the buffer. -/
def lastWrite {α : Type} (block : SelectCall → Option (Mat α)) (calls : List SelectCall)
    (l t s : ℕ) : Option α :=
  calls.foldl (fun last c => (Tensor3.blockAt c.layerIdx (block c) l t s).or last) none

/-- The ids that a call writes. -/
def SelectCall.idsBlock (c : SelectCall) : Option (Mat ℤ) := some c.topkIds

/-- The width of the buffers after some calls. -/
def widthAfter (width : ℕ) (calls : List SelectCall) : ℕ :=
  calls.foldl (fun w c => max w c.topkIds.cols) width

/-- The calls from the last one on that was wider than the buffer; all calls if there is none. -/
def sinceGrowth (width : ℕ) (calls : List SelectCall) : List SelectCall :=
  (calls.foldl (fun p c => if p.1 < c.topkIds.cols then (c.topkIds.cols, [c]) else (p.1, p.2 ++ [c]))
    (width, [])).2

theorem lastWrite_concat {α : Type} (block : SelectCall → Option (Mat α)) (calls : List SelectCall)
    (c : SelectCall) (l t s : ℕ) :
    lastWrite block (calls ++ [c]) l t s =
      (Tensor3.blockAt c.layerIdx (block c) l t s).or (lastWrite block calls l t s) := by
  rw [lastWrite, List.foldl_append]
  rfl

theorem widthAfter_concat (width : ℕ) (calls : List SelectCall) (c : SelectCall) :
    widthAfter width (calls ++ [c]) = max (widthAfter width calls) c.topkIds.cols := by
  rw [widthAfter, List.foldl_append]
  rfl

theorem le_widthAfter (width : ℕ) (calls : List SelectCall) : width ≤ widthAfter width calls := by
  induction calls using List.reverseRecOn with
  | nil => exact le_rfl
  | append_singleton calls c ih =>
    rw [widthAfter_concat]
    omega

theorem sinceGrowth_concat (width : ℕ) (calls : List SelectCall) (c : SelectCall) :
    sinceGrowth width (calls ++ [c]) =
      if widthAfter width calls < c.topkIds.cols then [c] else sinceGrowth width calls ++ [c] := by
  -- the first component of the fold is the width
  have hwidth : ∀ calls : List SelectCall, (calls.foldl (fun p c =>
      if p.1 < c.topkIds.cols then (c.topkIds.cols, [c]) else (p.1, p.2 ++ [c])) (width, [])).1 =
        widthAfter width calls := by
    intro calls
    induction calls using List.reverseRecOn with
    | nil => rfl
    | append_singleton calls c ih =>
      rw [List.foldl_append, widthAfter_concat, ← ih]
      simp only [List.foldl_cons, List.foldl_nil]
      split
      · rename_i hlt
        exact (Nat.max_eq_right hlt.le).symm
      · rename_i hge
        exact (Nat.max_eq_left (not_lt.mp hge)).symm
  rw [sinceGrowth, List.foldl_append, sinceGrowth, ← hwidth]
  simp only [List.foldl_cons, List.foldl_nil]
  split <;> rfl

/-- A block is written inside the width of its call. -/
theorem blockAt_eq_none {α : Type} {i : ℕ} {m : Mat α} {l t s : ℕ} (h : m.cols ≤ s) :
    Tensor3.blockAt i (some m) l t s = none := by
  rw [Tensor3.blockAt, Option.bind_some, if_neg]
  omega

/-- What the buffers hold after the calls of a pass that started at the given width. -/
structure PassCells (cfg : RecorderConfig) (batch : ForwardBatch) (width : ℕ)
    (calls : List SelectCall) (g : Gatherer) : Prop where
  shaped : g.Shaped cfg
  metadata : g.metadata = some batch
  dim2 : g.topkIdsOfLayer.dim2 = widthAfter width calls
  ids : ∀ l t s, s < widthAfter width calls → g.topkIdsOfLayer.cell l t s =
    (lastWrite SelectCall.idsBlock calls l t s).getD (if s < width then -1 else 0)
  weights : ∀ l t s, s < widthAfter width calls → g.topkWeightsOfLayer.cell l t s =
    (lastWrite SelectCall.topkWeights calls l t s).getD 0
  logits : ∀ l t e, g.routerLogitsOfLayer.cell l t e =
    (lastWrite (SelectCall.logitsBlock cfg.numLogicalExperts) (sinceGrowth width calls) l t e).getD 0

section Cells

variable {batch : ForwardBatch} {width : ℕ} {calls : List SelectCall} {c : SelectCall} {g : Gatherer}

theorem cell_grow_ids (g : Gatherer) {l t s : ℕ} {k : ℕ} (hs : s < max g.topkIdsOfLayer.dim2 k) :
    (g.grow cfg k).topkIdsOfLayer.cell l t s =
      if s < g.topkIdsOfLayer.dim2 then g.topkIdsOfLayer.cell l t s else 0 := by
  unfold Gatherer.grow
  split
  · rfl
  · rw [if_pos (by omega)]

theorem cell_grow_weights (hg : g.Shaped cfg) {l t s : ℕ} {k : ℕ}
    (hs : s < max g.topkIdsOfLayer.dim2 k) :
    (g.grow cfg k).topkWeightsOfLayer.cell l t s =
      if s < g.topkIdsOfLayer.dim2 then g.topkWeightsOfLayer.cell l t s else 0 := by
  rw [← hg.weights_dim2]
  unfold Gatherer.grow
  split
  · rfl
  · rw [if_pos]
    rw [hg.weights_dim2]
    omega

theorem cell_grow_logits (g : Gatherer) (k l t e : ℕ) :
    (g.grow cfg k).routerLogitsOfLayer.cell l t e =
      if g.topkIdsOfLayer.dim2 < k then 0 else g.routerLogitsOfLayer.cell l t e := by
  unfold Gatherer.grow
  split <;> rfl

/-- The cell of a buffer to which a call may have written. -/
theorem cell_map_withBlock {α : Type} (t : Tensor3 α) (i : ℕ) (m : Option (Mat α)) (l j k : ℕ) :
    ((m.map (t.withBlock i)).getD t).cell l j k = (Tensor3.blockAt i m l j k).getD (t.cell l j k) := by
  cases m with
  | none => rfl
  | some m => exact t.cell_withBlock i m l j k

theorem lastWrite_eq_none_of_le {α : Type} {block : SelectCall → Option (Mat α)}
    (hblock : ∀ c m, block c = some m → m.cols ≤ c.topkIds.cols) (calls : List SelectCall)
    {l t s : ℕ} (hs : widthAfter width calls ≤ s) : lastWrite block calls l t s = none := by
  induction calls using List.reverseRecOn with
  | nil => rfl
  | append_singleton calls c ih =>
    rw [widthAfter_concat] at hs
    rw [lastWrite_concat, ih (by omega), Option.or_none]
    cases hm : block c with
    | none => rfl
    | some m =>
      have := hblock c m hm
      exact blockAt_eq_none (by omega)

theorem SelectCall.weights_cols_le (c : SelectCall) (m : Mat ℚ) (h : c.topkWeights = some m) :
    m.cols ≤ c.topkIds.cols := (c.weights_cols m h).le

/-- The step: one more call. -/
theorem PassCells.stored (h : PassCells cfg batch width calls g) :
    PassCells cfg batch width (calls ++ [c]) (c.stored cfg g) where
  shaped := h.shaped.stored c
  metadata := by
    rw [← h.metadata]
    unfold SelectCall.stored Gatherer.grow
    split <;> rfl
  dim2 := by
    rw [widthAfter_concat, ← h.dim2]
    exact Gatherer.grow_dim2 g c.topkIds.cols
  ids := by
    intro l t s hs
    rw [widthAfter_concat, ← h.dim2] at hs
    have hcell := cell_map_withBlock (g.grow cfg c.topkIds.cols).topkIdsOfLayer c.layerIdx c.idsBlock l t s
    rw [lastWrite_concat, Option.getD_or]
    refine hcell.trans (congrArg _ ?_)
    rw [cell_grow_ids g hs]
    split
    · rename_i hold
      exact h.ids l t s (h.dim2 ▸ hold)
    · -- a column that the call adds: no call before can have written to it
      rename_i hnew
      rw [lastWrite_eq_none_of_le (fun c m hm => ?_) calls (h.dim2 ▸ not_lt.mp hnew)]
      · have := le_widthAfter width calls
        have := h.dim2
        rw [Option.getD_none, if_neg (by omega)]
      · cases hm
        exact le_rfl
  weights := by
    intro l t s hs
    rw [widthAfter_concat, ← h.dim2] at hs
    have hcell := cell_map_withBlock (g.grow cfg c.topkIds.cols).topkWeightsOfLayer c.layerIdx
      c.topkWeights l t s
    rw [lastWrite_concat, Option.getD_or]
    refine hcell.trans (congrArg _ ?_)
    rw [cell_grow_weights h.shaped hs]
    split
    · rename_i hold
      exact h.weights l t s (h.dim2 ▸ hold)
    · rename_i hnew
      rw [lastWrite_eq_none_of_le SelectCall.weights_cols_le calls (h.dim2 ▸ not_lt.mp hnew)]
      rfl
  logits := by
    intro l t e
    have hcell := cell_map_withBlock (g.grow cfg c.topkIds.cols).routerLogitsOfLayer c.layerIdx
      (c.logitsBlock cfg.numLogicalExperts) l t e
    rw [sinceGrowth_concat, ← h.dim2]
    refine hcell.trans ?_
    rw [cell_grow_logits]
    split
    · rw [lastWrite, List.foldl_cons, List.foldl_nil, Option.or_none]
    · rw [lastWrite_concat, Option.getD_or, h.logits]

/-- A pass starts on buffers without a trace of earlier passes. -/
theorem passCells_nil (hg : g.Shaped cfg) :
    PassCells cfg batch g.topkIdsOfLayer.dim2 [] { g.reset with metadata := some batch } where
  shaped := { hg.reset with }
  metadata := rfl
  dim2 := rfl
  ids := fun _ _ _ hs => (if_pos hs).symm
  weights := fun _ _ _ _ => rfl
  logits := fun _ _ _ => rfl

/-- The calls of a pass return exactly if their rows fit, and leave the cells as `PassCells` says. -/
theorem run_calls (h : PassCells cfg batch width [] g) (hlayers : ∀ c ∈ calls, c.layerIdx < cfg.numLayers)
    {g' : Gatherer} :
    (calls.forM (SelectCall.run cfg)).run g = .ok () g' →
      (∀ c ∈ calls, c.topkIds.rows ≤ cfg.bufferRows) ∧ PassCells cfg batch width calls g' := by
  induction calls using List.reverseRecOn generalizing g' with
  | nil =>
    rintro ⟨⟩
    exact ⟨fun c hc => absurd hc List.not_mem_nil, h⟩
  | append_singleton calls c ih =>
    intro hrun
    obtain ⟨g₁, hcalls, hlast⟩ := PyM.run_forM_concat.mp hrun
    obtain ⟨hrows, hcells⟩ := ih (fun c hc => hlayers c (by simp [hc])) hcalls
    obtain ⟨hrow, rfl⟩ := (SelectCall.run_eq_ok hcells.shaped (hlayers c (by simp))).mp hlast
    refine ⟨fun c' hc' => ?_, hcells.stored⟩
    rcases List.mem_append.mp hc' with hc' | hc'
    · exact hrows c' hc'
    · rw [List.mem_singleton.mp hc']
      exact hrow

theorem exists_run_calls (h : PassCells cfg batch width [] g)
    (hlayers : ∀ c ∈ calls, c.layerIdx < cfg.numLayers)
    (hrows : ∀ c ∈ calls, c.topkIds.rows ≤ cfg.bufferRows) :
    ∃ g', (calls.forM (SelectCall.run cfg)).run g = .ok () g' := by
  induction calls using List.reverseRecOn with
  | nil => exact ⟨g, rfl⟩
  | append_singleton calls c ih =>
    have hlayers' : ∀ c ∈ calls, c.layerIdx < cfg.numLayers := fun c hc => hlayers c (by simp [hc])
    obtain ⟨g₁, hcalls⟩ := ih hlayers' fun c hc => hrows c (by simp [hc])
    obtain ⟨-, hcells⟩ := run_calls h hlayers' hcalls
    have hlast := (SelectCall.run_eq_ok hcells.shaped (hlayers c (by simp))).mpr
      ⟨hrows c (by simp), rfl⟩
    exact ⟨c.stored cfg g₁, PyM.run_forM_concat.mpr ⟨g₁, hcalls, hlast⟩⟩

end Cells

/-! ## What `collect` returns -/

/-- The pass returns, and `collect` returns for every layer, token and slot the id last written in the
pass or `-1`, the weight last written or `0`, and the logit last written or `0`. -/
def RecordsCells (cfg : RecorderConfig) (g : Gatherer) (batch : ForwardBatch)
    (calls : List SelectCall) : Prop :=
  ∃ g' data, (recordPass cfg batch calls).run g = .ok () g' ∧ g'.collect cfg = .ok data ∧
    let nested {α : Type} (cols : ℕ) (f : ℕ → ℕ → ℕ → α) : List (List (List α)) :=
      (List.range cfg.numLayers).map fun l => (List.range batch.inputIds.length).map fun t =>
        (List.range cols).map fun s => f l t s
    let width := widthAfter g.topkIdsOfLayer.dim2 calls
    data.topkIdsOfLayer =
      nested width (fun l t s => (lastWrite SelectCall.idsBlock calls l t s).getD (-1)) ∧
    data.topkWeightsOfLayer =
      nested width (fun l t s => (lastWrite SelectCall.topkWeights calls l t s).getD 0) ∧
    data.routerLogitsOfLayer =
      nested cfg.numLogicalExperts (fun l t e =>
        (lastWrite (SelectCall.logitsBlock cfg.numLogicalExperts) calls l t e).getD 0)

theorem collect_eq_ok {g : Gatherer} {batch : ForwardBatch} {data : SinglePassData}
    (hmeta : g.metadata = some batch) (h : g.collect cfg = .ok data) :
    data.topkIdsOfLayer = g.topkIdsOfLayer.takeRows batch.inputIds.length ∧
      data.routerLogitsOfLayer = g.routerLogitsOfLayer.takeRows batch.inputIds.length ∧
      data.topkWeightsOfLayer = g.topkWeightsOfLayer.takeRows batch.inputIds.length ∧
      (List.range cfg.numLayers).mapM (Gatherer.countLayer batch.inputIds.length
        cfg.numPhysicalExperts g.topkIdsOfLayer) = .ok data.globalPhysicalCount := by
  rw [Gatherer.collect, hmeta] at h
  obtain ⟨count, hcount, h⟩ := except_bind_eq_ok.mp h
  cases h
  exact ⟨rfl, rfl, rfl, hcount⟩

/-- `collect` raises if there is a layer to count and no token. -/
theorem tokens_pos_of_collect {g : Gatherer} {batch : ForwardBatch} {data : SinglePassData}
    (hmeta : g.metadata = some batch) (h : g.collect cfg = .ok data) (hlayers : cfg.numLayers ≠ 0) :
    1 ≤ batch.inputIds.length := by
  obtain ⟨-, -, -, hcount⟩ := collect_eq_ok hmeta h
  obtain ⟨count, hcount⟩ := forall_of_mapM_eq_ok hcount 0 (List.mem_range.mpr (by omega))
  by_contra hnone
  have hzero : batch.inputIds.length = 0 := by omega
  rw [hzero] at hcount
  simp only [Gatherer.countLayer, Tensor3.layerRows, Nat.zero_min, List.range_zero, List.map_nil,
    List.flatten_nil, if_true] at hcount
  cases hcount

/-- The calls of a pass cover the id columns that they add, and no logit that they lose is missed: it was
written again after the last growth, or it was `0`. -/
structure CoversGrowth (cfg : RecorderConfig) (width numTokens : ℕ) (calls : List SelectCall) : Prop where
  ids : ∀ l < cfg.numLayers, ∀ t < numTokens, ∀ s < widthAfter width calls, width ≤ s →
    (lastWrite SelectCall.idsBlock calls l t s).isSome
  logits : ∀ l < cfg.numLayers, ∀ t < numTokens, ∀ e < cfg.numLogicalExperts,
    (lastWrite (SelectCall.logitsBlock cfg.numLogicalExperts) (sinceGrowth width calls) l t e).getD 0 =
      (lastWrite (SelectCall.logitsBlock cfg.numLogicalExperts) calls l t e).getD 0

/-- The ids of a pass are the ones last written if and only if the added columns are covered. -/
theorem PassCells.ids_iff {batch : ForwardBatch} {width : ℕ} {calls : List SelectCall} {g : Gatherer}
    (h : PassCells cfg batch width calls g) {l t s : ℕ} (hs : s < widthAfter width calls) :
    g.topkIdsOfLayer.cell l t s = (lastWrite SelectCall.idsBlock calls l t s).getD (-1) ↔
      (width ≤ s → (lastWrite SelectCall.idsBlock calls l t s).isSome) := by
  rw [h.ids l t s hs]
  cases lastWrite SelectCall.idsBlock calls l t s with
  | some e => simp
  | none =>
    by_cases hlt : s < width
    · simp [hlt, not_le.mpr hlt]
    · simp [hlt, not_lt.mp hlt]

theorem recordsCells_iff_of_run {batch : ForwardBatch} {calls : List SelectCall} {g g' : Gatherer}
    (hlayers : cfg.numLayers ≠ 0)
    (hcells : PassCells cfg batch g.topkIdsOfLayer.dim2 calls g') {data : SinglePassData}
    (hrun : (recordPass cfg batch calls).run g = .ok () g') (hcollect : g'.collect cfg = .ok data) :
    RecordsCells cfg g batch calls ↔ batch.inputIds.length ≤ cfg.bufferRows ∧
      CoversGrowth cfg g.topkIdsOfLayer.dim2 batch.inputIds.length calls := by
  obtain ⟨hids, hlogits, hweights, -⟩ := collect_eq_ok hcells.metadata hcollect
  have hshaped := hcells.shaped
  have hids_iff := Tensor3.takeRows_eq_map_iff (n := batch.inputIds.length) (f := fun l t s =>
    (lastWrite SelectCall.idsBlock calls l t s).getD (-1)) hcells.dim2
  have hweights_iff := Tensor3.takeRows_eq_map_iff (n := batch.inputIds.length) (f := fun l t s =>
    (lastWrite SelectCall.topkWeights calls l t s).getD 0) (hshaped.weights_dim2.trans hcells.dim2)
  have hlogits_iff := Tensor3.takeRows_eq_map_iff (n := batch.inputIds.length) (f := fun l t e =>
    (lastWrite (SelectCall.logitsBlock cfg.numLogicalExperts) calls l t e).getD 0) hshaped.logits_dim2
  rw [hshaped.ids_dim0, hshaped.ids_dim1, or_iff_right hlayers] at hids_iff
  rw [hshaped.weights_dim0, hshaped.weights_dim1, or_iff_right hlayers] at hweights_iff
  rw [hshaped.logits_dim0, hshaped.logits_dim1, or_iff_right hlayers] at hlogits_iff
  constructor
  · rintro ⟨g₁, data₁, hrun₁, hcollect₁, h₁, -, h₃⟩
    rw [hrun] at hrun₁
    cases hrun₁
    rw [hcollect] at hcollect₁
    cases hcollect₁
    obtain ⟨hrows, hcell⟩ := hids_iff.mp (hids.symm.trans h₁)
    obtain ⟨-, hlogit⟩ := hlogits_iff.mp (hlogits.symm.trans h₃)
    refine ⟨hrows, fun l hl t ht s hs hw => ?_, fun l hl t ht e he => ?_⟩
    · exact (hcells.ids_iff hs).mp (hcell l hl t ht s hs) hw
    · rw [← hcells.logits]
      exact hlogit l hl t ht e he
  · rintro ⟨hrows, hcover⟩
    refine ⟨g', data, hrun, hcollect, hids.trans (hids_iff.mpr ⟨hrows, fun l hl t ht s hs => ?_⟩),
      hweights.trans (hweights_iff.mpr ⟨hrows, fun l hl t ht s hs => hcells.weights l t s hs⟩),
      hlogits.trans (hlogits_iff.mpr ⟨hrows, fun l hl t ht e he => ?_⟩)⟩
    · exact (hcells.ids_iff hs).mpr (hcover.ids l hl t ht s hs)
    · rw [hcells.logits]
      exact hcover.logits l hl t ht e he

/-- **Growth of the buffers.** After any earlier calls, a pass over layers of the model returns what was
last written to every cell, and the defaults elsewhere, if and only if the model has no layer, or the pass
has a token, its tokens and the rows of its calls fit the buffers, and its calls cover the growth. -/
theorem recorded_cells_iff (cfg : RecorderConfig) (history : List GathererCall) (batch : ForwardBatch)
    {calls : List SelectCall} (hlayers : ∀ c ∈ calls, c.layerIdx < cfg.numLayers) :
    RecordsCells cfg (gathererAfter cfg history) batch calls ↔
      cfg.numLayers = 0 ∨
        (1 ≤ batch.inputIds.length ∧ batch.inputIds.length ≤ cfg.bufferRows ∧
          (∀ c ∈ calls, c.topkIds.rows ≤ cfg.bufferRows) ∧
          CoversGrowth cfg (gathererAfter cfg history).topkIdsOfLayer.dim2 batch.inputIds.length
            calls) := by
  have hshaped := shaped_gathererAfter cfg history
  set g := gathererAfter cfg history with hg
  have hstart := @passCells_nil cfg batch g hshaped
  by_cases hzero : cfg.numLayers = 0
  · -- without layers there are no calls, and nothing to collect
    have hcalls : calls = [] := by
      refine List.eq_nil_iff_forall_not_mem.mpr fun c hc => ?_
      have := hlayers c hc
      omega
    subst hcalls
    simp only [hzero, true_or, iff_true]
    obtain ⟨data, hcollect⟩ : ∃ data,
        Gatherer.collect cfg { g.reset with metadata := some batch } = .ok data := by
      simp only [Gatherer.collect, Gatherer.convertPerTokenToGlobalPhysicalCount, hzero,
        List.range_zero, List.mapM_nil]
      exact ⟨_, rfl⟩
    obtain ⟨hids, hlogits, hweights, -⟩ := collect_eq_ok rfl hcollect
    refine ⟨_, data, rfl, hcollect, hids.trans ?_, hweights.trans ?_, hlogits.trans ?_⟩
    · rw [Tensor3.takeRows, hstart.shaped.ids_dim0, hzero, List.range_zero]
      rfl
    · rw [Tensor3.takeRows, hstart.shaped.weights_dim0, hzero, List.range_zero]
      rfl
    · rw [Tensor3.takeRows, hstart.shaped.logits_dim0, hzero, List.range_zero]
      rfl
  · rw [or_iff_right hzero]
    constructor
    · intro h
      obtain ⟨g', data, hrun, hcollect, -⟩ := id h
      obtain ⟨hrows, hcells⟩ := run_calls hstart hlayers hrun
      obtain ⟨htokens, hcover⟩ := (recordsCells_iff_of_run hzero hcells hrun hcollect).mp h
      exact ⟨tokens_pos_of_collect hcells.metadata hcollect hzero, htokens, hrows, hcover⟩
    · rintro ⟨hpos, htokens, hrows, hcover⟩
      obtain ⟨g', hrun⟩ := exists_run_calls hstart hlayers hrows
      obtain ⟨-, hcells⟩ := run_calls hstart hlayers hrun
      obtain ⟨data, hcollect⟩ := collect_ok cfg hcells.metadata (List.ne_nil_of_length_pos hpos)
        (by rw [hcells.shaped.ids_dim1]; omega) hcells.shaped.width_pos
      exact (recordsCells_iff_of_run hzero hcells hrun hcollect).mpr ⟨htokens, hcover⟩

/-- A model of two layers. -/
def twoLayerConfig : RecorderConfig := { sampleConfig with numLayers := 2 }

/-- A call on layer 0 for one token that is routed to the experts `0, …, cols - 1`. -/
def sampleCall (cols : ℕ) : SelectCall where
  layerIdx := 0
  topkIds := ⟨1, cols, fun _ s => s⟩
  logits_rows := by simp
  weights_rows := by simp
  weights_cols := by simp

theorem recorded_cells_iff_sample :
    RecordsCells twoLayerConfig (gathererAfter twoLayerConfig []) { inputIds := [7] }
      [sampleCall 8] := by
  refine (recorded_cells_iff twoLayerConfig [] { inputIds := [7] } (by decide)).mpr (.inr ?_)
  refine ⟨by decide, by decide, by decide, ?_, ?_⟩
  · intro l _ t _ s hs hw
    exact absurd hs (not_lt.mpr hw)
  · intro l _ t _ e _
    rfl

/-- A call with one more slot than the buffers have. Layer 1 is not called, and its slot 8 is the expert
`0`. -/
theorem recorded_cells_wide_call :
    ¬RecordsCells twoLayerConfig (gathererAfter twoLayerConfig []) { inputIds := [7] } [sampleCall 9] := by
  rintro ⟨g', data, hrun, hcollect, hids, -⟩
  cases hrun
  cases hcollect
  have hcell := congrArg (fun ids => ((ids.getD 1 []).getD 0 []).getD 8 7) hids
  revert hcell
  decide

end MoeSpecialization.Recorder
