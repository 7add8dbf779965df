import MoeSpecialization.Recorder.Collect

/-!
# The dispatch entries of a recorded pass

Reference: `_DetailSinglePassGatherer.on_deepep_dispatch_normal`, `reset` and `collect`,
`_DetailAccumulator.append` and `dump`, and `_ExpertDistributionRecorderReal._reset`.

`collect` clones the tensors of a pass but hands over the list `_misc_objects` itself, and `reset` empties
that list in place. So all records ever appended share one list with the gatherer: it holds the entries
of the pass that ran last, the next pass replaces them, and a dump empties it before its caller sees the
records. A record holds the entries of its own pass for good only if there are none
(`recorded_passes_snapshots_iff`).
-/

namespace MoeSpecialization.Recorder

open Py

/-! ## What a pass observes -/

/-- The contents of the gatherer's own list. -/
def RecorderState.misc (s : RecorderState) : List MiscObject := s.gatherer.store s.gatherer.miscObjects

/-- The contents of `misc_objects` of a record, as long as the recorder is in the given state. -/
def PassRecord.contents (r : PassRecord) (s : RecorderState) : List MiscObject :=
  s.gatherer.store r.miscObjects

/-- The entry of a dispatch. -/
def Hook.entry (layerIdx : ℕ) : Hook → List MiscObject
  | .deepepDispatchNormal perRank perRdmaRank perExpert _ =>
    [⟨layerIdx, perRank, perRdmaRank, perExpert⟩]
  | .selectExperts _ _ _ _ | .deepepDispatchLowLatency _ => []

/-- The entry of a hook call, if the call reaches the gatherer. -/
def hookEntries (layerIdx : ℕ) (hook : Hook) (s : RecorderState) : List MiscObject :=
  if s.disableAll ∨ !(s.recording || RecorderState.Hook.capturing hook) then []
  else hook.entry layerIdx

section

variable (cfg : RecorderConfig)

/-- The dispatch entries of a block. A disabled region has none. -/
def blockEntries : Block → RecorderState → List MiscObject
  | .layer layerIdx hooks, s =>
    PyM.emitted (hookEntries layerIdx) (RecorderState.onHook cfg layerIdx) hooks
      (s.setLayerIdx (some layerIdx))
  | .disabledRegion _, _ => []

/-- The dispatch entries observed during a pass that starts in the given state. -/
def observedIn (s : RecorderState) (p : Pass) : List MiscObject :=
  PyM.emitted (blockEntries cfg) (RecorderState.runBlock cfg) p.blocks (passStart p s)

/-- The pass leaves a record: the recorder is on, and there is a token to count or no layer. -/
def LeavesRecord (s : RecorderState) (p : Pass) : Prop :=
  s.recording = true ∧ (cfg.numLayers = 0 ∨ p.batch.inputIds ≠ [])

/-- The record that the pass appends. -/
def Appends (s : RecorderState) (p : Pass) (r : PassRecord) : Prop :=
  (step cfg s (.forwardPass p)).1.records = s.records ++ [r]

/-- The state after some calls on a new recorder. -/
def stateAfter (ops : List Op) : RecorderState := (run cfg (.init cfg) ops).1

/-- In every state of the run, a record that was appended holds the entries of its own pass, and so does
a record that a dump returned. -/
structure Snapshots (ops : List Op) : Prop where
  appended : ∀ h p t t' r, ops = h ++ .forwardPass p :: (t ++ t') → Appends cfg (stateAfter cfg h) p r →
    r.contents (stateAfter cfg (h ++ .forwardPass p :: t)) = observedIn cfg (stateAfter cfg h) p
  returned : ∀ h t t' d r, ops = h ++ .dumpRecord :: (t ++ t') →
    (run cfg (.init cfg) ops).2[h.length]? = some (.dump d) → r ∈ d.records →
      ∃ h₁ p h₂, h = h₁ ++ .forwardPass p :: h₂ ∧ Appends cfg (stateAfter cfg h₁) p r ∧
        r.contents (stateAfter cfg (h ++ .dumpRecord :: t)) = observedIn cfg (stateAfter cfg h₁) p

/-- From the first pass on that leaves a record, no pass observes a dispatch entry. -/
def Quiet (ops : List Op) : Prop :=
  ∀ h p t, ops = h ++ .forwardPass p :: t → LeavesRecord cfg (stateAfter cfg h) p →
    observedIn cfg (stateAfter cfg h) p = [] ∧
    ∀ h' q t', t = h' ++ .forwardPass q :: t' →
      observedIn cfg (stateAfter cfg (h ++ .forwardPass p :: h')) q = []

end

/-! ## The body of a pass -/

/-- What leaves the list object alone. -/
def Gatherer.SameMisc (g g' : Gatherer) : Prop := g'.miscObjects = g.miscObjects ∧ g'.store = g.store

theorem Gatherer.SameMisc.refl (g : Gatherer) : Gatherer.SameMisc g g := ⟨rfl, rfl⟩

theorem Gatherer.SameMisc.trans (g g' g'' : Gatherer) (h : Gatherer.SameMisc g g')
    (h' : Gatherer.SameMisc g' g'') : Gatherer.SameMisc g g'' :=
  ⟨h'.1.trans h.1, h'.2.trans h.2⟩

theorem Gatherer.writeTopkIds_misc (layerIdx : ℕ) (m : Mat ℤ) :
    PyM.Preserves Gatherer.SameMisc (Gatherer.writeTopkIds layerIdx m) := by
  intro g
  rw [Gatherer.writeTopkIds, PyM.final_get_bind]
  cases g.topkIdsOfLayer.setBlock layerIdx m <;> exact .refl g

theorem Gatherer.writeRouterLogits_misc (layerIdx : ℕ) (m : Mat ℚ) :
    PyM.Preserves Gatherer.SameMisc (Gatherer.writeRouterLogits layerIdx m) := by
  intro g
  rw [Gatherer.writeRouterLogits, PyM.final_get_bind]
  split
  · cases g.routerLogitsOfLayer.setBlock layerIdx m <;> exact .refl g
  · exact .refl g

theorem Gatherer.writeTopkWeights_misc (layerIdx : ℕ) (m : Mat ℚ) :
    PyM.Preserves Gatherer.SameMisc (Gatherer.writeTopkWeights layerIdx m) := by
  intro g
  rw [Gatherer.writeTopkWeights, PyM.final_get_bind]
  cases g.topkWeightsOfLayer.setBlock layerIdx m <;> exact .refl g

section

variable {cfg : RecorderConfig}

theorem Gatherer.grow_misc (actualTopK : ℕ) (g : Gatherer) :
    Gatherer.SameMisc g (Gatherer.grow cfg actualTopK g) := by
  unfold Gatherer.grow
  split <;> exact .refl g

theorem Gatherer.onSelectExperts_misc (layerIdx : ℕ) (topkIds : Mat ℤ)
    (routerLogits topkWeights : Option (Mat ℚ)) :
    PyM.Preserves Gatherer.SameMisc
      (Gatherer.onSelectExperts cfg layerIdx topkIds routerLogits topkWeights) := by
  refine PyM.preserves_bind .trans (PyM.preserves_modify (Gatherer.grow_misc _)) fun _ => ?_
  refine PyM.preserves_bind .trans (Gatherer.writeTopkIds_misc layerIdx topkIds) fun _ => ?_
  refine PyM.preserves_bind .trans ?_ fun _ => ?_
  · exact PyM.preserves_forM .refl .trans fun m _ => Gatherer.writeRouterLogits_misc layerIdx m
  · exact PyM.preserves_forM .refl .trans fun m _ => Gatherer.writeTopkWeights_misc layerIdx m

/-- The gatherer keeps one list object. -/
structure SameRef (s s' : RecorderState) : Prop where
  ref : s'.gatherer.miscObjects = s.gatherer.miscObjects

theorem SameRef.refl (s : RecorderState) : SameRef s s := ⟨rfl⟩

theorem SameRef.trans (s s' s'' : RecorderState) (h : SameRef s s') (h' : SameRef s' s'') :
    SameRef s s'' := ⟨h'.ref.trans h.ref⟩

/-- A hook call keeps the list object and appends its entry. -/
theorem final_onHook (layerIdx : ℕ) (hook : Hook) (s : RecorderState) :
    SameRef s (PyM.final (RecorderState.onHook cfg layerIdx hook) s) ∧
      (PyM.final (RecorderState.onHook cfg layerIdx hook) s).misc = s.misc ++ hookEntries layerIdx hook s := by
  rw [RecorderState.onHook, PyM.final_get_bind, hookEntries]
  by_cases hdisabled : s.disableAll = true
  · rw [if_pos hdisabled, if_pos (.inl hdisabled)]
    exact ⟨.refl s, (List.append_nil _).symm⟩
  rw [if_neg hdisabled]
  by_cases hoff : (!(s.recording || RecorderState.Hook.capturing hook)) = true
  · rw [if_pos hoff, if_pos (.inr hoff)]
    exact ⟨.refl s, (List.append_nil _).symm⟩
  rw [if_neg hoff, if_neg (not_or.mpr ⟨hdisabled, hoff⟩), RecorderState.onGatherer, PyM.final_zoom]
  cases hook with
  | selectExperts topkIds routerLogits topkWeights c =>
    obtain ⟨href, hstore⟩ :=
      @Gatherer.onSelectExperts_misc cfg layerIdx topkIds routerLogits topkWeights s.gatherer
    refine ⟨⟨href⟩, ?_⟩
    rw [Hook.entry, List.append_nil]
    exact (congrFun hstore _).trans (congrArg s.gatherer.store href)
  | deepepDispatchNormal perRank perRdmaRank perExpert c =>
    exact ⟨⟨rfl⟩, Function.update_self _ _ _⟩
  | deepepDispatchLowLatency c => exact ⟨.refl s, (List.append_nil _).symm⟩

theorem hooks_ref (layerIdx : ℕ) (hooks : List Hook) :
    PyM.Preserves SameRef (hooks.forM (RecorderState.onHook cfg layerIdx)) :=
  PyM.preserves_forM .refl .trans fun hook _ s => (final_onHook layerIdx hook s).1

theorem runBlock_ref (block : Block) : PyM.Preserves SameRef (RecorderState.runBlock cfg block) := by
  cases block with
  | layer layerIdx hooks =>
    exact PyM.preserves_withValue .refl .trans (fun _ _ => ⟨rfl⟩) layerIdx (hooks_ref layerIdx hooks)
  | disabledRegion hooks =>
    refine PyM.preserves_get_bind fun s => ?_
    refine PyM.preserves_bind .trans (PyM.preserves_modify fun _ => ⟨rfl⟩) (fun _ => ?_) s
    exact PyM.preserves_tryFinally .trans (hooks_ref 0 hooks) (PyM.preserves_modify fun _ => ⟨rfl⟩)

theorem runBody_ref (p : Pass) : PyM.Preserves SameRef (RecorderState.runBody cfg p) := by
  refine PyM.preserves_bind .trans ?_ fun _ => ?_
  · exact PyM.preserves_forM .refl .trans fun block _ => runBlock_ref block
  · cases p.raises with
    | none => exact PyM.preserves_pure .refl _
    | some msg => exact PyM.preserves_throw .refl _

/-- The hook calls of a layer append their entries. -/
theorem misc_hooks (layerIdx : ℕ) (hooks : List Hook) (s : RecorderState) :
    (PyM.final (hooks.forM (RecorderState.onHook cfg layerIdx)) s).misc = s.misc ++
      PyM.emitted (hookEntries layerIdx) (RecorderState.onHook cfg layerIdx) hooks s :=
  PyM.log_forM (P := fun _ => True) (fun _ _ _ => trivial)
    (fun hook s _ => (final_onHook layerIdx hook s).2) hooks trivial

/-- In a disabled region nothing reaches the gatherer. -/
theorem run_hooks_of_disabled {s : RecorderState} (h : s.disableAll = true) (layerIdx : ℕ)
    (hooks : List Hook) : (hooks.forM (RecorderState.onHook cfg layerIdx)).run s = .ok ⟨⟩ s := by
  induction hooks with
  | nil => rfl
  | cons hook hooks ih =>
    have hhook : (RecorderState.onHook cfg layerIdx hook).run s = .ok ⟨⟩ s := by
      rw [RecorderState.onHook, PyM.run_bind_of_ok (PyM.run_get s), if_pos h]
      rfl
    exact (PyM.run_bind_of_ok hhook).trans ih

theorem misc_runBlock (block : Block) {s : RecorderState} (h : s.currentLayerIdx = none) :
    (PyM.final (RecorderState.runBlock cfg block) s).misc = s.misc ++ blockEntries cfg block s := by
  cases block with
  | layer layerIdx hooks =>
    have hframe := hooks_frame cfg layerIdx hooks (s.setLayerIdx (some layerIdx))
    rw [RecorderState.runBlock, RecorderState.withCurrentLayer, PyM.final_withValue h hframe.layerIdx]
    exact misc_hooks layerIdx hooks (s.setLayerIdx (some layerIdx))
  | disabledRegion hooks =>
    have hrun := @run_hooks_of_disabled cfg { s with disableAll := true } rfl 0 hooks
    rw [RecorderState.runBlock, RecorderState.disableThisRegion, PyM.final_get_bind, PyM.final,
      PyM.run_bind_of_ok (PyM.run_modify _ _), ← PyM.final, PyM.final_tryFinally]
    rw [PyM.final, PyM.final, hrun]
    exact (List.append_nil _).symm

/-- The body of a pass appends what the pass observes. -/
theorem misc_runBody (p : Pass) {s : RecorderState} (h : s.currentLayerIdx = none) :
    (PyM.final (RecorderState.runBody cfg p) s).misc = s.misc ++
      PyM.emitted (blockEntries cfg) (RecorderState.runBlock cfg) p.blocks s := by
  have hblocks : (PyM.final (p.blocks.forM (RecorderState.runBlock cfg)) s).misc = s.misc ++
      PyM.emitted (blockEntries cfg) (RecorderState.runBlock cfg) p.blocks s :=
    PyM.log_forM (P := fun s => s.currentLayerIdx = none)
      (fun block s hs => (runBlock_frame cfg block s).layerIdx.trans hs)
      (fun block s hs => misc_runBlock block hs) p.blocks h
  refine PyM.final_bind_of (P := fun s' : RecorderState => s'.misc = s.misc ++ _) hblocks fun _ s' hs' => ?_
  cases p.raises <;> exact hs'

/-! ## One call -/

/-- With the recorder on, a pass starts with an empty list. -/
theorem passStart_misc (p : Pass) (s : RecorderState) :
    SameRef s (passStart p s) ∧ (passStart p s).misc = if s.recording then [] else s.misc := by
  rw [passStart]
  dsimp only
  have hon : (s.setForwardPassId (some p.forwardPassId)).recording = s.recording := rfl
  rw [hon]
  split
  · exact ⟨⟨rfl⟩, Function.update_self _ _ _⟩
  · exact ⟨⟨rfl⟩, rfl⟩

/-- A pass keeps the list object; with the recorder on the list is emptied first, and then the pass
appends what it observes. -/
theorem misc_step_forwardPass {s : RecorderState} (h : Ready cfg s) (p : Pass) :
    SameRef s (step cfg s (.forwardPass p)).1 ∧
      (step cfg s (.forwardPass p)).1.misc = (if s.recording then [] else s.misc) ++ observedIn cfg s p := by
  have hend : (PyM.final (RecorderState.onForwardPassEnd cfg p.forwardPassId) (bodyEnd cfg p s)).gatherer =
      (bodyEnd cfg p s).gatherer := by
    rw [RecorderState.onForwardPassEnd, PyM.final_get_bind]
    split
    · cases (bodyEnd cfg p s).gatherer.collect cfg <;> rfl
    · rfl
  rw [step_forwardPass, final_withForwardPass h.passId]
  have hmisc := @misc_runBody cfg p _ ((passStart_layerIdx p s).trans h.layerIdx)
  rw [(passStart_misc p s).2] at hmisc
  constructor
  · have href := @runBody_ref cfg p (passStart p s)
    exact ⟨(congrArg Gatherer.miscObjects hend).trans (href.ref.trans (passStart_misc p s).1.ref)⟩
  · rw [observedIn, ← hmisc, RecorderState.misc, RecorderState.setForwardPassId, hend]
    rfl

theorem ref_step {s : RecorderState} (h : Ready cfg s) (op : Op) : SameRef s (step cfg s op).1 := by
  cases op with
  | startRecord =>
    rw [step, run_startRecord h.layerIdx]
    exact ⟨rfl⟩
  | stopRecord => exact ⟨rfl⟩
  | dumpRecord =>
    rw [step, run_dumpRecord cfg h.layerIdx]
    exact ⟨rfl⟩
  | getStatus =>
    rw [step_getStatus]
    exact .refl s
  | forwardPass p => exact (misc_step_forwardPass h p).1

theorem misc_step_dumpRecord {s : RecorderState} (h : Ready cfg s) :
    (step cfg s .dumpRecord).1.misc = [] := by
  rw [step, run_dumpRecord cfg h.layerIdx]
  exact Function.update_self _ _ _

/-- An empty list stays empty unless a pass observes an entry. -/
theorem misc_step_of_nil {s : RecorderState} (h : Ready cfg s) (hnil : s.misc = []) {op : Op}
    (hop : ∀ p, op = .forwardPass p → observedIn cfg s p = []) : (step cfg s op).1.misc = [] := by
  cases op with
  | startRecord =>
    rw [step, run_startRecord h.layerIdx]
    exact Function.update_self _ _ _
  | stopRecord => exact hnil
  | dumpRecord => exact misc_step_dumpRecord h
  | getStatus => rw [step_getStatus, hnil]
  | forwardPass p => rw [(misc_step_forwardPass h p).2, hop p rfl, hnil, ite_self, List.append_nil]

/-- A pass that leaves a record appends one. -/
theorem leavesRecord_iff {s : RecorderState} (h : Ready cfg s) (p : Pass) :
    LeavesRecord cfg s p ↔ ∃ r, Appends cfg s p r := by
  constructor
  · rintro ⟨hon, hpos⟩
    have hcollects : cfg.numLayers = 0 ∨ 1 ≤ p.batch.inputIds.length :=
      hpos.imp_right fun hne => List.length_pos_of_ne_nil hne
    obtain ⟨data, hdata⟩ := exists_collect (bodyEnd_shaped p h) (bodyEnd_metadata hon) hcollects
    exact ⟨_, records_step_of_collect h hon hdata⟩
  · rintro ⟨r, hr⟩
    obtain ⟨hon, hcollect⟩ := collect_of_records_step h hr
    refine ⟨hon, or_iff_not_imp_left.mpr fun hlayers => ?_⟩
    exact List.ne_nil_of_length_pos (tokens_pos_of_collect (bodyEnd_metadata hon) hcollect hlayers)

theorem records_step_of_not_leaves {s : RecorderState} (h : Ready cfg s) {p : Pass}
    (hleaves : ¬LeavesRecord cfg s p) : (step cfg s (.forwardPass p)).1.records = s.records := by
  have hnone : ∀ r, ¬Appends cfg s p r := fun r hr => hleaves ((leavesRecord_iff h p).mpr ⟨r, hr⟩)
  have hrecords := @records_step_forwardPass cfg s p h
  split at hrecords
  · cases hcollect : (bodyEnd cfg p s).gatherer.collect cfg with
    | ok data =>
      rw [hcollect] at hrecords
      exact absurd hrecords (hnone _)
    | error e =>
      rw [hcollect] at hrecords
      exact hrecords.trans (List.append_nil _)
  · exact hrecords.trans (List.append_nil _)

/-- The record of a pass holds the gatherer's list. -/
theorem ref_of_appends {s : RecorderState} (h : Ready cfg s) {p : Pass} {r : PassRecord}
    (hr : Appends cfg s p r) : r.miscObjects = s.gatherer.miscObjects := by
  obtain ⟨hon, hcollect⟩ := collect_of_records_step h hr
  have hdata : r.miscObjects = (bodyEnd cfg p s).gatherer.miscObjects := by
    rw [Gatherer.collect, bodyEnd_metadata hon] at hcollect
    obtain ⟨count, -, hret⟩ := except_bind_eq_ok.mp hcollect
    exact (congrArg SinglePassData.miscObjects (Except.ok.inj hret)).symm
  rw [hdata, bodyEnd, (runBody_ref p _).ref, (passStart_misc p s).1.ref]

/-! ## Runs -/

theorem ready_stateAfter (ops : List Op) : Ready cfg (stateAfter cfg ops) := run_ready (ready_init cfg) ops

theorem stateAfter_append (h t : List Op) :
    stateAfter cfg (h ++ t) = (run cfg (stateAfter cfg h) t).1 := by
  rw [stateAfter, run_append]
  rfl

theorem ref_run {s : RecorderState} (h : Ready cfg s) (ops : List Op) : SameRef s (run cfg s ops).1 := by
  induction ops generalizing s with
  | nil => exact .refl s
  | cons op ops ih => exact .trans _ _ _ (ref_step h op) (ih (step_ready h op))

/-- An empty list stays empty along calls in which no pass observes an entry. -/
theorem misc_run_of_nil {s : RecorderState} (h : Ready cfg s) (hnil : s.misc = []) {ops : List Op}
    (hops : ∀ h p t, ops = h ++ .forwardPass p :: t → observedIn cfg (run cfg s h).1 p = []) :
    (run cfg s ops).1.misc = [] := by
  induction ops generalizing s with
  | nil => exact hnil
  | cons op ops ih =>
    refine ih (step_ready h op) (misc_step_of_nil h hnil fun p hp => ?_) fun h' p t hsplit => ?_
    · exact hops [] p ops (by rw [hp]; rfl)
    · exact hops (op :: h') p t (by rw [hsplit]; rfl)

/-- In every later state the record of a pass shows the gatherer's list. -/
theorem contents_eq_misc {h t : List Op} {p : Pass} {r : PassRecord}
    (hr : Appends cfg (stateAfter cfg h) p r) :
    r.contents (stateAfter cfg (h ++ .forwardPass p :: t)) =
      (stateAfter cfg (h ++ .forwardPass p :: t)).misc := by
  have hready := @ready_stateAfter cfg h
  rw [PassRecord.contents, ref_of_appends hready hr, stateAfter_append, RecorderState.misc,
    (ref_run hready _).ref]

/-- A record that is kept was appended by a pass of the run. -/
theorem exists_appends {ops : List Op} {r : PassRecord} (hr : r ∈ (stateAfter cfg ops).records) :
    ∃ h p t, ops = h ++ .forwardPass p :: t ∧ Appends cfg (stateAfter cfg h) p r := by
  induction ops using List.reverseRecOn with
  | nil => cases hr
  | append_singleton ops op ih =>
    have hready := @ready_stateAfter cfg ops
    have hold : r ∈ (stateAfter cfg ops).records →
        ∃ h p t, ops ++ [op] = h ++ .forwardPass p :: t ∧ Appends cfg (stateAfter cfg h) p r := by
      intro hmem
      obtain ⟨h, p, t, rfl, happends⟩ := ih hmem
      exact ⟨h, p, t ++ [op], by simp, happends⟩
    have hlast : stateAfter cfg (ops ++ [op]) = (step cfg (stateAfter cfg ops) op).1 := stateAfter_append ops [op]
    rw [hlast] at hr
    cases op with
    | startRecord =>
      rw [step, run_startRecord hready.layerIdx] at hr
      cases hr
    | stopRecord => exact hold hr
    | dumpRecord =>
      rw [step, run_dumpRecord cfg hready.layerIdx] at hr
      cases hr
    | getStatus =>
      rw [step_getStatus] at hr
      exact hold hr
    | forwardPass p =>
      by_cases hleaves : LeavesRecord cfg (stateAfter cfg ops) p
      · obtain ⟨r', happends⟩ := (leavesRecord_iff hready p).mp hleaves
        rw [happends, List.mem_append, List.mem_singleton] at hr
        rcases hr with hr | rfl
        · exact hold hr
        · exact ⟨ops, p, [], rfl, happends⟩
      · rw [records_step_of_not_leaves hready hleaves] at hr
        exact hold hr

/-- The reply of a dump has the records that were kept. -/
theorem dump_reply {h t : List Op} {d : Dump}
    (hd : (run cfg (.init cfg) (h ++ .dumpRecord :: t)).2[h.length]? = some (.dump d)) :
    d.records = (stateAfter cfg h).records := by
  rw [getElem?_run, step, ← stateAfter, run_dumpRecord cfg (ready_stateAfter h).layerIdx] at hd
  cases hd
  rfl

/-- A pass of a run that ends with a dump comes before the dump. -/
theorem exists_before_dump {ops h t : List Op} {p : Pass}
    (hops : ops ++ [.dumpRecord] = h ++ .forwardPass p :: t) :
    ∃ t₀, ops = h ++ .forwardPass p :: t₀ ∧ t = t₀ ++ [.dumpRecord] := by
  rcases List.eq_nil_or_concat t with rfl | ⟨t₀, op, rfl⟩
  · cases (List.append_inj' hops rfl).2
  · rw [List.concat_eq_append, ← List.cons_append, ← List.append_assoc] at hops
    obtain ⟨rfl, hlast⟩ := List.append_inj' hops rfl
    cases hlast
    exact ⟨t₀, rfl, List.concat_eq_append⟩

/-- From a quiet pass on that leaves a record, the list is empty. -/
theorem misc_of_quiet {ops h t t' : List Op} {p : Pass} (hquiet : Quiet cfg ops)
    (hops : ops ++ [.dumpRecord] = h ++ .forwardPass p :: (t ++ t'))
    (hleaves : LeavesRecord cfg (stateAfter cfg h) p) :
    observedIn cfg (stateAfter cfg h) p = [] ∧
      (stateAfter cfg (h ++ .forwardPass p :: t)).misc = [] := by
  have hready := @ready_stateAfter cfg h
  obtain ⟨t₀, rfl, ht₀⟩ := exists_before_dump hops
  obtain ⟨hown, hlater⟩ := hquiet h p t₀ rfl hleaves
  refine ⟨hown, ?_⟩
  have hstep : (step cfg (stateAfter cfg h) (.forwardPass p)).1.misc = [] := by
    rw [(misc_step_forwardPass hready p).2, if_pos hleaves.1, hown]
    rfl
  rw [stateAfter_append]
  refine misc_run_of_nil (step_ready hready _) hstep fun h' q t'' ht => ?_
  rw [ht, List.append_assoc] at ht₀
  obtain ⟨t₁, hsplit, -⟩ := exists_before_dump ht₀.symm
  have hq := hlater h' q t₁ hsplit
  rw [stateAfter_append] at hq
  exact hq

/-- Where the records are snapshots of their passes, the dump that clears the list finds it empty, and so
does every pass behind the first record. -/
theorem quiet_of_snapshots {ops : List Op} (hsnap : Snapshots cfg (ops ++ [.dumpRecord])) :
    Quiet cfg ops := by
  intro h p t hops hleaves
  have hready := @ready_stateAfter cfg h
  obtain ⟨r, hr⟩ := (leavesRecord_iff hready p).mp hleaves
  have hown : observedIn cfg (stateAfter cfg h) p = [] := by
    rw [← hsnap.appended h p (t ++ [.dumpRecord]) [] r (by simp [hops]) hr, contents_eq_misc hr,
      ← List.cons_append, ← List.append_assoc, stateAfter_append]
    exact misc_step_dumpRecord (ready_stateAfter _)
  refine ⟨hown, fun h' q t' ht => ?_⟩
  subst ht
  have hbefore := hsnap.appended h p h' (.forwardPass q :: t' ++ [.dumpRecord]) r (by simp [hops]) hr
  have hafter := hsnap.appended h p (h' ++ [.forwardPass q]) (t' ++ [.dumpRecord]) r (by simp [hops]) hr
  rw [contents_eq_misc hr, hown] at hbefore hafter
  rw [← List.cons_append, ← List.append_assoc, stateAfter_append] at hafter
  have hstep := (misc_step_forwardPass (@ready_stateAfter cfg (h ++ .forwardPass p :: h')) q).2
  rw [hbefore, ite_self, List.nil_append] at hstep
  exact hstep.symm.trans hafter

theorem snapshots_of_quiet {ops : List Op} (hquiet : Quiet cfg ops) :
    Snapshots cfg (ops ++ [.dumpRecord]) := by
  constructor
  · intro h p t t' r hops hr
    have hleaves := (leavesRecord_iff (ready_stateAfter h) p).mpr ⟨r, hr⟩
    obtain ⟨hown, hmisc⟩ := misc_of_quiet hquiet hops hleaves
    rw [contents_eq_misc hr, hmisc, hown]
  · intro h t t' d r hops hd hmem
    rw [hops] at hd
    rw [dump_reply hd] at hmem
    obtain ⟨h₁, p, h₂, rfl, hr⟩ := exists_appends hmem
    refine ⟨h₁, p, h₂, rfl, hr, ?_⟩
    have hleaves := (leavesRecord_iff (ready_stateAfter h₁) p).mpr ⟨r, hr⟩
    rw [List.append_assoc, List.cons_append] at hops ⊢
    have hsplit : ops ++ [.dumpRecord] =
        h₁ ++ .forwardPass p :: ((h₂ ++ .dumpRecord :: t) ++ t') := by
      rw [hops]
      simp
    obtain ⟨hown, hmisc⟩ := misc_of_quiet hquiet hsplit hleaves
    rw [contents_eq_misc hr, hmisc, hown]

/-- **Recorded passes as snapshots.** In a run that ends with a dump, every record that was appended holds
the dispatch entries of its own pass in every later state, and so does every record that a dump returned,
if and only if no pass observes a dispatch entry from the first one on that leaves a record. -/
theorem recorded_passes_snapshots_iff (cfg : RecorderConfig) (ops : List Op) :
    Snapshots cfg (ops ++ [.dumpRecord]) ↔ Quiet cfg ops :=
  ⟨quiet_of_snapshots, snapshots_of_quiet⟩

end

/-- A pass with a dispatch on layer 0. -/
def dispatchPass : Pass :=
  { forwardPassId := 1
    batch := { inputIds := [5] }
    blocks := [.layer 0 [.deepepDispatchNormal [1] [1] [1, 0] false]] }

/-- One pass with a dispatch entry, then a dump: the returned record has lost the entry. -/
theorem dispatch_entry_lost :
    let ops : List Op := [.startRecord, .forwardPass dispatchPass, .dumpRecord]
    observedIn sampleConfig (stateAfter sampleConfig [.startRecord]) dispatchPass =
      [⟨0, [1], [1], [1, 0]⟩] ∧
    (∃ r, (run sampleConfig (.init sampleConfig) ops).2[2]? =
        some (.dump ⟨[r], sampleConfig.physicalToLogicalMap⟩) ∧
      r.contents (stateAfter sampleConfig ops) = []) ∧
    ¬Snapshots sampleConfig ops := by
  refine ⟨rfl, ⟨_, rfl, rfl⟩, fun h => ?_⟩
  have hown := h.appended [.startRecord] dispatchPass [.dumpRecord] [] _ rfl rfl
  cases hown

end MoeSpecialization.Recorder
