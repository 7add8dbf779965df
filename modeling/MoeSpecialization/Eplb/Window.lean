import MoeSpecialization.Eplb.Dispatch
import MoeSpecialization.Eplb.Manager

/-!
# The counts of a rebalancing

Reference: `EPLBManager` in `sglang/srt/eplb/eplb_manager.py` and `_StatAccumulator` in
`sglang/srt/eplb/expert_distribution.py`.

The buffer of a rank keeps counts by physical experts, and a dump converts all of them with the map of that
moment. Counts from before an update would be read with the wrong map. The manager asserts that it waits for at
least as many passes as the buffer has slots, and this is enough: after the last chunk of a rebalancing come as many
passes as it waits for, so every count in the buffer is of the map that it is read with
(`dumped_counts_eq_routed`).
-/

namespace MoeSpecialization.Eplb

open Py Recorder

section Definitions

/-- A rank between two passes: its manager, and the buffer of its recorder. -/
structure RecordingRank (cfg : RecorderConfig) (bufferSize : ℤ) where
  manager : Manager
  buffer : Buffer (PhysicalCount (statConfig cfg bufferSize))

variable {cfg : RecorderConfig} {bufferSize : ℤ}

/-- `global_physical_count` of a pass. -/
def physicalCount (cfg : RecorderConfig) (bufferSize : ℤ) (data : ℕ → ℕ → ℕ) :
    PhysicalCount (statConfig cfg bufferSize) := fun l p => (data l p : ℤ)

/-- A pass: the choices of the router are dispatched and counted, and the counts are appended to the buffer. -/
def RecordingRank.recordPass (algorithm : Option EpDispatchAlgorithm) (s : RecordingRank cfg bufferSize)
    (calls : List RoutedCall) : Except Error (RecordingRank cfg bufferSize) := do
  let selected ← calls.mapM fun c => c.select algorithm s.manager.metadata
  match (countPass selected).run (SelectExpertsGatherer.init cfg) with
  | .error e _ => throw e
  | .ok _ gatherer =>
    let buffer ← s.buffer.append (physicalCount cfg bufferSize gatherer.data.cell)
    return { s with buffer := buffer }

variable {K σ : Type}

/-- The manager is about to dump. -/
def Position.dumps (a : ManagerArgs K) : Position → Bool
  | .waiting done => a.rebalanceNumIterations ≤ done
  | .updating _ _ _ => false

variable (rng : Random σ) [Zero K] [Add K] [Mul K] [LT K] [DecidableLT K] [NatCast K] [Div K]
  (T : TorchVec K) (args : ServerArgs) (config : ModelConfigForExpertLocation) (activeRanks : List Bool)
  (a : ManagerArgs K) (layerIds : List ℕ) (rank : ℕ)

/-- The end of a pass. A dump resets the buffer. -/
def RecordingRank.endPass (s : RecordingRank cfg bufferSize) (dump : DumpOutput K) :
    Except Error (RecordingRank cfg bufferSize) := do
  let manager ← s.manager.onForwardPassEnd rng T args config activeRanks a layerIds rank dump
  return ⟨manager, if s.manager.position.dumps a then s.buffer.reset else s.buffer⟩

/-- The states that a rank reaches, with the passes since the last dump. -/
inductive Recorded : RecordingRank cfg bufferSize → List (List RoutedCall) → Prop
  | start {s : RecordingRank cfg bufferSize} (phy2log : Mat ℤ)
      (hplaces : s.manager.metadata.Places args config.numLayers config.numLogicalExperts
        (numPhysicalExperts args config) phy2log)
      (hposition : s.manager.position = .waiting 0) (hbuffer : s.buffer = .initNew bufferSize) : Recorded s []
  | pass {s s₁ s' : RecordingRank cfg bufferSize} {passes : List (List RoutedCall)} {calls : List RoutedCall}
      {dump : DumpOutput K} (hs : Recorded s passes)
      (hcalls : ∀ c ∈ calls, c.Valid cfg.numLayers cfg.numLogicalExperts) (hdump : dump.Fits config)
      (hrecord : s.recordPass args.epDispatchAlgorithm calls = .ok s₁)
      (hend : s₁.endPass rng T args config activeRanks a layerIds rank dump = .ok s') :
      Recorded s' (if s.manager.position.dumps a then [] else passes ++ [calls])

end Definitions

section Window

variable {cfg : RecorderConfig} {bufferSize : ℤ} {args : ServerArgs} {config : ModelConfigForExpertLocation}

/-- The recorder has the sizes of the model. -/
structure RecorderFits (cfg : RecorderConfig) (args : ServerArgs) (config : ModelConfigForExpertLocation) :
    Prop where
  layers : config.numLayers = cfg.numLayers
  logical : config.numLogicalExperts = cfg.numLogicalExperts
  physical : numPhysicalExperts args config = cfg.numPhysicalExperts

/-- A count is that of some calls, if it is read with the map. -/
def CountsRouted (m : ExpertLocationMetadata) (x : PhysicalCount (statConfig cfg bufferSize) × List RoutedCall) :
    Prop :=
  ∀ l e, @logicalOf (statConfig cfg bufferSize) (fun l p => m.physicalToLogicalMap.cell l p) x.1 l e =
    routerCounts x.2 l e

/-- A pass is recorded, and its counts are those of the router. -/
theorem exists_recordPass (hfits : RecorderFits cfg args config) (h : args.FitsModel config) {phy2log : Mat ℤ}
    {s : RecordingRank cfg bufferSize} (hplaces : s.manager.metadata.Places args config.numLayers
      config.numLogicalExperts (numPhysicalExperts args config) phy2log)
    {algorithm : EpDispatchAlgorithm} (halgorithm : args.epDispatchAlgorithm = some algorithm)
    {passes : List (PhysicalCount (statConfig cfg bufferSize))} (hbuffer : s.buffer.Holds bufferSize passes)
    {calls : List RoutedCall} (hcalls : ∀ c ∈ calls, c.Valid cfg.numLayers cfg.numLogicalExperts) :
    ∃ buffer count, s.recordPass args.epDispatchAlgorithm calls = .ok { s with buffer := buffer } ∧
      buffer.Holds bufferSize (passes ++ [count]) ∧ CountsRouted s.manager.metadata (count, calls) := by
  obtain ⟨live, hlocated⟩ := hplaces.located
  rw [hfits.layers, hfits.logical, hfits.physical] at hlocated
  have hstatic : algorithm = .static → s.manager.metadata.logicalToRankDispatchPhysicalMap.isSome := by
    rintro rfl
    rw [hplaces.table]
    exact decide_eq_true halgorithm
  have hpos : 0 < cfg.numPhysicalExperts := by
    rw [← hfits.physical]
    exact lt_of_lt_of_le h.2.num_pos h.2.num_le
  obtain ⟨selected, hselected, hrange, hsum⟩ := hlocated.exists_selected hstatic hcalls
  have hcount : (countPass selected).run (SelectExpertsGatherer.init cfg) =
      .ok () ⟨cfg.numLayers, cfg.numPhysicalExperts, routedSlots selected⟩ :=
    run_countPass rfl rfl hpos (fun c hc => (hrange c hc).1) fun c hc => (hrange c hc).2
  obtain ⟨buffer, happend, hholds⟩ := hbuffer.append (physicalCount cfg bufferSize (routedSlots selected))
  refine ⟨buffer, _, ?_, hholds, fun l e => hsum l e⟩
  rw [RecordingRank.recordPass, halgorithm, hselected, ok_bind, hcount]
  show (s.buffer.append (physicalCount cfg bufferSize (routedSlots selected)) >>= _ : Except Error _) = _
  rw [happend]
  rfl

end Window

/-! ## The passes since an update -/

section Fresh

variable {K σ : Type} {rng : Random σ} [Zero K] [Add K] [Mul K] [LT K] [DecidableLT K] [NatCast K] [Div K]
  {T : TorchVec K} {args : ServerArgs} {config : ModelConfigForExpertLocation} {activeRanks : List Bool}
  {a : ManagerArgs K} {layerIds : List ℕ} {rank : ℕ}

/-- How many passes are over since the last update: the first pass of a loop is the one that ends with it. -/
def Position.fresh : Position → ℕ
  | .waiting done => done - 1
  | .updating _ _ _ => 0

/-- The metadata stays while the manager waits. -/
theorem fresh_onForwardPassEnd {m m' : Manager} {dump : DumpOutput K}
    (h : m.onForwardPassEnd rng T args config activeRanks a layerIds rank dump = .ok m') :
    m'.position.fresh = 0 ∨ m'.metadata = m.metadata ∧ m'.position.fresh ≤ m.position.fresh + 1 := by
  have hchunk (metadata : ExpertLocationMetadata) (chunk : List ℕ) (rest : List (List ℕ)) :
      (updateChunk metadata chunk rest).1.fresh = 0 := by
    rcases rest with _ | ⟨next, rest⟩
    · rfl
    · rfl
  obtain ⟨metadata, position⟩ := m
  obtain ⟨⟨p', update⟩, hnext, hupdate⟩ := except_bind_eq_ok.mp h
  obtain ⟨metadata', hmetadata, hm'⟩ := except_bind_eq_ok.mp hupdate
  obtain rfl := Except.ok.inj hm'
  cases position with
  | waiting done =>
    simp only [Position.next] at hnext
    split at hnext
    · cases hnext
      cases hmetadata
      exact .inr ⟨rfl, by simp only [Position.fresh]; omega⟩
    left
    split at hnext
    · cases hnext
      rfl
    obtain ⟨built, -, hnext⟩ := except_bind_eq_ok.mp hnext
    rcases built with _ | metadata
    · cases hnext
    rcases hchunks : computeUpdateLayerIdsChunks a layerIds with _ | ⟨chunk, _ | ⟨next, rest⟩⟩
    · rw [hchunks] at hnext
      cases hnext
      rfl
    · rw [hchunks] at hnext
      cases hnext
      exact hchunk metadata chunk []
    · rw [hchunks] at hnext
      cases hnext
      rfl
  | updating metadata chunk rest =>
    left
    have heq : updateChunk metadata chunk rest = (p', update) := Except.ok.inj hnext
    have hfresh := hchunk metadata chunk rest
    rwa [heq] at hfresh

/-- The last entries after one more. -/
theorem mem_rtake_concat {α : Type} {xs : List α} {x y : α} {n k : ℕ} (hn : n ≤ k + 1)
    (hx : x ∈ (xs ++ [y]).rtake n) : x ∈ xs.rtake k ∨ x = y := by
  have hx : x ∈ (xs ++ [y]).rtake (k + 1) := List.drop_subset_drop_left _ (Nat.sub_le_sub_left hn _) hx
  rwa [List.rtake_concat_succ, List.mem_append, List.mem_singleton] at hx

/-- The manager of one rank, as those of all of them. -/
theorem RanksAgree.const {numLayers numLogical numPhysical : ℕ} {phy2log : Mat ℤ} {managers : ℕ → Manager}
    (h : RanksAgree args numLayers numLogical numPhysical phy2log managers) (rank : ℕ) :
    RanksAgree args numLayers numLogical numPhysical phy2log fun _ => managers rank where
  places := fun _ => h.places rank
  inStep := by
    rcases h.inStep with ⟨done, hp⟩ | ⟨phy2log', metadata, chunk, rest, hp, hplaces⟩
    · exact .inl ⟨done, fun _ => hp rank⟩
    · exact .inr ⟨phy2log', fun _ => metadata rank, chunk, rest, fun _ => hp rank, fun _ => hplaces rank⟩

end Fresh

/-! ## The dumped counts -/

section Dumped

variable {K σ : Type} (rng : Random σ) [Zero K] [Add K] [Mul K] [LT K] [DecidableLT K] [NatCast K] [Div K]
  (T : TorchVec K) {args : ServerArgs} {config : ModelConfigForExpertLocation} {activeRanks : List Bool}
  (a : ManagerArgs K) (layerIds : List ℕ) (rank : ℕ) {cfg : RecorderConfig} {bufferSize : ℤ}

/-- The invariant of a rank: its buffer holds the counts since the last dump, and those since the last update are
of the map that it has. -/
structure RecordingRank.Holds (a : ManagerArgs K) (args : ServerArgs) (config : ModelConfigForExpertLocation)
    (s : RecordingRank cfg bufferSize)
    (xs : List (PhysicalCount (statConfig cfg bufferSize) × List RoutedCall)) (phy2log : Mat ℤ) : Prop where
  agree : RanksAgree args config.numLayers config.numLogicalExperts (numPhysicalExperts args config) phy2log
    fun _ => s.manager
  buffer : s.buffer.Holds bufferSize (xs.map Prod.fst)
  routed : ∀ x ∈ xs.rtake s.manager.position.fresh, CountsRouted s.manager.metadata x

variable {s s₁ s' : RecordingRank cfg bufferSize} {passes : List (List RoutedCall)} {calls : List RoutedCall}
  {algorithm : EpDispatchAlgorithm}

/-- Every state that is reached satisfies the invariant. -/
theorem Recorded.holds (hfits : RecorderFits cfg args config) (h : args.Serves config activeRanks)
    (halgorithm : args.epDispatchAlgorithm = some algorithm) (hsize : bufferSize ≠ 0)
    (hs : Recorded rng T args config activeRanks a layerIds rank s passes) :
    ∃ xs phy2log, xs.map Prod.snd = passes ∧ s.Holds a args config xs phy2log := by
  induction hs with
  | start phy2log hplaces hposition hbuffer =>
    refine ⟨[], phy2log, rfl, ⟨fun _ => hplaces, .inl ⟨0, fun _ => hposition⟩⟩, ?_, fun x hx => ?_⟩
    · rw [hbuffer]
      exact Buffer.holds_initNew hsize
    · rw [List.rtake_nil] at hx
      cases hx
  | @pass s s₁ s' passes calls dump _ hcalls hdump hrecord hend ih =>
    obtain ⟨xs, phy2log, hxs, hagree, hbuffer, hrouted⟩ := ih
    obtain ⟨buffer, count, hrecord', hholds, hcounts⟩ :=
      exists_recordPass hfits h.fits (hagree.places rank) halgorithm hbuffer hcalls
    obtain rfl := Except.ok.inj (hrecord.symm.trans hrecord')
    obtain ⟨manager', hmanager, hs'⟩ := except_bind_eq_ok.mp hend
    obtain rfl := Except.ok.inj hs'
    obtain ⟨phy2log', managers', hstep, hagree'⟩ := hagree.step rng T a layerIds h hdump
    obtain rfl := Except.ok.inj ((hstep rank).symm.trans hmanager)
    by_cases hdumps : s.manager.position.dumps a
    · refine ⟨[], phy2log', by rw [if_pos hdumps]; rfl, hagree'.const rank, ?_, fun x hx => ?_⟩
      · simp only [if_pos hdumps]
        exact hholds.reset
      · rw [List.rtake_nil] at hx
        cases hx
    · refine ⟨xs ++ [(count, calls)], phy2log', ?_, hagree'.const rank, ?_, fun x hx => ?_⟩
      · rw [if_neg hdumps, List.map_append, hxs]
        rfl
      · simp only [if_neg hdumps, List.map_append]
        exact hholds
      · rcases fresh_onForwardPassEnd hmanager with hzero | ⟨hmetadata, hfresh⟩
        · simp only [hzero, List.rtake_zero] at hx
          cases hx
        · show CountsRouted (managers' rank).metadata x
          rw [hmetadata]
          rcases mem_rtake_concat hfresh hx with hx | rfl
          · exact hrouted x hx
          · exact hcounts

/-- **A dump has the counts of the router.** If the buffer has at most as many slots as the manager waits for
passes, then in every run, with any dispatch, rebalancings and chunks before: what is dumped, converted with the map
of that moment, is how often the router chose each expert in the last passes that the buffer has room for. -/
theorem dumped_counts_eq_routed (hfits : RecorderFits cfg args config) (h : args.Serves config activeRanks)
    (halgorithm : args.epDispatchAlgorithm = some algorithm) (hsize : 0 < bufferSize)
    (hle : bufferSize ≤ a.rebalanceNumIterations)
    (hs : Recorded rng T args config activeRanks a layerIds rank s passes)
    (hcalls : ∀ c ∈ calls, c.Valid cfg.numLayers cfg.numLogicalExperts) (hdumps : s.manager.position.dumps a) :
    ∃ s₁ logicalCount, s.recordPass args.epDispatchAlgorithm calls = .ok s₁ ∧
      @logicalCountOfBufferedStep (statConfig cfg bufferSize) s₁.buffer
        (fun l p => s₁.manager.metadata.physicalToLogicalMap.cell l p) = .ok logicalCount ∧
      ∀ l e, (logicalCount.map fun step => step l e).sum =
        (((passes ++ [calls]).rtake bufferSize.toNat).map fun calls => (routerCounts calls l e : ℤ)).sum := by
  obtain ⟨xs, phy2log, hxs, hagree, hbuffer, hrouted⟩ := hs.holds rng T a layerIds rank hfits h halgorithm hsize.ne'
  have hplaces := hagree.places rank
  obtain ⟨buffer, count, hrecord, hholds, hcounts⟩ :=
    exists_recordPass hfits h.fits hplaces halgorithm hbuffer hcalls
  obtain ⟨live, hlocated⟩ := hplaces.located
  rw [hfits.layers, hfits.logical, hfits.physical] at hlocated
  let map : ExpertMap (statConfig cfg bufferSize) := fun l p => s.manager.metadata.physicalToLogicalMap.cell l p
  have hlogical : logicalCountOfBufferedStep buffer map = .ok (buffer.getAll.map (logicalOf map)) := by
    rw [logicalCountOfBufferedStep, convertGlobalPhysicalCountToLogicalCount,
      if_pos (.inr fun l p => (hlocated.layer l l.isLt).logical p p.isLt)]
    refine congrArg Except.ok (List.map_congr_left fun count _ => ?_)
    funext l e
    exact scatterAdd_eq_sum (map l) (count l) e
  -- the buffer has no more slots than there are passes since the last update
  have hwindow : ∀ x ∈ (xs ++ [(count, calls)]).rtake bufferSize.toNat, CountsRouted s.manager.metadata x := by
    intro x hx
    have hfresh : bufferSize.toNat ≤ s.manager.position.fresh + 1 := by
      rcases hp : s.manager.position with done | ⟨metadata, chunk, rest⟩
      · rw [hp] at hdumps
        have hdone : a.rebalanceNumIterations ≤ done := of_decide_eq_true hdumps
        show bufferSize.toNat ≤ done - 1 + 1
        omega
      · rw [hp] at hdumps
        cases hdumps
    rcases mem_rtake_concat hfresh hx with hx | rfl
    · exact hrouted x hx
    · exact hcounts
  refine ⟨_, _, hrecord, hlogical, fun l e => ?_⟩
  have hzero : logicalOf map 0 l e = 0 := Finset.sum_eq_zero fun p _ => rfl
  have hsum := hholds.sum_getAll (f := fun count => logicalOf map count l e) hzero
  have hfst : xs.map Prod.fst ++ [count] = (xs ++ [(count, calls)]).map Prod.fst := by rw [List.map_append]; rfl
  have hsnd : passes ++ [calls] = (xs ++ [(count, calls)]).map Prod.snd := by rw [List.map_append, hxs]; rfl
  rw [List.map_map]
  refine hsum.trans ?_
  rw [if_neg (not_lt.mpr hsize.le), hfst, hsnd, List.rtake.eq_def, List.rtake.eq_def, List.length_map,
    List.length_map, ← List.map_drop, ← List.map_drop, List.map_map, List.map_map]
  exact congrArg List.sum (List.map_congr_left fun x hx => hwindow x hx l e)

end Dumped

/-! ## A dump after two passes -/

section Sample

/-- The recorder of a model of two layers. -/
def sampleLayersRecorder : RecorderConfig := ⟨2, 2, 4, [[0, 1, 0, 1], [0, 1, 0, 1]], 0, 1, Nat.one_pos⟩

theorem sampleLayersRecorder_fits : RecorderFits sampleLayersRecorder sampleArgs sampleLayers := ⟨rfl, rfl, rfl⟩

theorem sampleCalls_valid : ∀ c ∈ [sampleCall], c.Valid 2 2 :=
  List.forall_mem_singleton.mpr ⟨by decide, sampleCall_valid.2⟩

/-- The buffer has one slot: the second pass is dumped. -/
theorem dumped_counts_eq_routed_sample : ∃ (s s₁ : RecordingRank sampleLayersRecorder 1)
    (logicalCount : List (LogicalCount (statConfig sampleLayersRecorder 1))),
    s.recordPass (some .dynamic) [sampleCall] = .ok s₁ ∧
    @logicalCountOfBufferedStep (statConfig sampleLayersRecorder 1) s₁.buffer
      (fun l p => s₁.manager.metadata.physicalToLogicalMap.cell l p) = .ok logicalCount ∧
    ∀ e, (logicalCount.map fun step => step ⟨0, Nat.two_pos⟩ e).sum = 1 := by
  obtain ⟨metadata, -, hplaces⟩ := exists_started Random.identity sampleLayers_serves.fits
    (completeMapping_trivial sampleLayers_serves.fits)
  let s : RecordingRank sampleLayersRecorder 1 := ⟨⟨metadata 0, .waiting 0⟩, .initNew 1⟩
  have hs : Recorded Random.identity (TorchVec.exact ℚ) sampleArgs sampleLayers [true, true] sampleManagerArgs [0, 1]
      0 s [] := .start _ (hplaces 0) rfl rfl
  obtain ⟨buffer, -, hrecord, -⟩ := @exists_recordPass sampleLayersRecorder 1 sampleArgs sampleLayers
    sampleLayersRecorder_fits sampleLayers_serves.fits _ s (hplaces 0) _ rfl [] (Buffer.holds_initNew (by decide))
    [sampleCall] sampleCalls_valid
  have hend : RecordingRank.endPass Random.identity (TorchVec.exact ℚ) sampleArgs sampleLayers [true, true]
      sampleManagerArgs [0, 1] 0 { s with buffer := buffer } sampleDump =
        .ok ⟨⟨metadata 0, .waiting 1⟩, buffer⟩ := rfl
  have hpass := Recorded.pass hs sampleCalls_valid sampleDump_fits hrecord hend
  obtain ⟨s₁, logicalCount, hrecord, hlogical, hsum⟩ := dumped_counts_eq_routed Random.identity (TorchVec.exact ℚ)
    sampleManagerArgs [0, 1] 0 sampleLayersRecorder_fits sampleLayers_serves rfl (by decide) (by decide) hpass
    sampleCalls_valid rfl
  refine ⟨_, s₁, logicalCount, hrecord, hlogical, fun e => (hsum _ e).trans ?_⟩
  show (([[sampleCall], [sampleCall]].rtake 1).map fun calls => (routerCounts calls 0 e : ℤ)).sum = 1
  revert e
  decide

end Sample

end MoeSpecialization.Eplb
