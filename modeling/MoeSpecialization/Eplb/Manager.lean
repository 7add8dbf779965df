import MoeSpecialization.Eplb.Metadata

/-!
# The manager of the load balancer

Reference: `EPLBManager` in `sglang/srt/eplb/eplb_manager.py`.

Every rank has a manager, a generator that goes on at the end of each forward pass. It waits for some
passes, dumps the recorded counts, builds new metadata and updates the layers by chunks, one chunk at the
end of a pass. The counts are reduced over all ranks and the utilization is broadcast, so a dump is the
same on all ranks.

The ranks keep in step for any dumps: none raises, they update the same layers at the end of the same pass,
and between the passes they agree on where the experts are (`managers_agree`). A rebalancing ends with the new
maps in all layers (`rebalance_complete`).
-/

namespace MoeSpecialization.Eplb

open Py

section Definitions

variable {K : Type}

/-- The server arguments that the manager reads. Without an iteration to wait for, its loop would not come
to an end. -/
structure ManagerArgs (K : Type) where
  rebalanceNumIterations : ℕ
  rebalanceLayersPerChunk : Option ℕ
  minRebalancingUtilizationThreshold : K
  iterations_pos : 0 < rebalanceNumIterations

/-- What `dump_record` returns. -/
structure DumpOutput (K : Type) where
  logicalCount : Tensor3 ℕ
  averageUtilizationRateOverWindow : Option K

/-- `_chunk_list`. -/
def chunkList (items : List ℕ) (chunkSize : ℕ) : List (List ℕ) :=
  (List.range ((items.length + chunkSize - 1) / chunkSize)).map fun i =>
    (items.drop (i * chunkSize)).take chunkSize

/-- `_compute_update_layer_ids_chunks`, for the layers that have routed experts. -/
def computeUpdateLayerIdsChunks (a : ManagerArgs K) (layerIds : List ℕ) : List (List ℕ) :=
  chunkList (layerIds.insertionSort (· ≤ ·))
    (match a.rebalanceLayersPerChunk with
    | none | some 0 => 1000000
    | some n => n)

/-- `_check_rebalance_needed`. -/
def checkRebalanceNeeded [LT K] [DecidableLT K] (a : ManagerArgs K) (average : Option K) : Bool :=
  match average with
  | none => true
  | some average => ¬a.minRebalancingUtilizationThreshold < average

/-- Where the generator is suspended: in the loop after some of its iterations, or before the update of a
chunk. -/
inductive Position where
  | waiting (done : ℕ)
  | updating (metadata : ExpertLocationMetadata) (chunk : List ℕ) (rest : List (List ℕ))

/-- The rest of `rebalance` from a chunk on: the chunk is updated, and the generator yields before the next
one or goes back to its loop. -/
def updateChunk (metadata : ExpertLocationMetadata) (chunk : List ℕ) (rest : List (List ℕ)) :
    Position × Option (ExpertLocationMetadata × List ℕ) :=
  match rest with
  | [] => (.waiting 1, some (metadata, chunk))
  | next :: rest => (.updating metadata next rest, some (metadata, chunk))

/-- The manager of a rank, with the metadata that it updates. -/
structure Manager where
  metadata : ExpertLocationMetadata
  position : Position

section Steps

variable {σ : Type} (rng : Random σ) [Zero K] [Add K] [Mul K] [LT K] [DecidableLT K] [NatCast K] [Div K]
  (T : TorchVec K) (args : ServerArgs) (config : ModelConfigForExpertLocation) (activeRanks : List Bool)
  (a : ManagerArgs K) (layerIds : List ℕ)

/-- `next` on the generator: where it is suspended then, and the update that it makes before. -/
def Position.next (rank : ℕ) (dump : DumpOutput K) :
    Position → Except Error (Position × Option (ExpertLocationMetadata × List ℕ))
  | .waiting done =>
    if done < a.rebalanceNumIterations then .ok (.waiting (done + 1), none)
    else if ¬checkRebalanceNeeded a dump.averageUtilizationRateOverWindow then .ok (.waiting 1, none)
    else do
      match ← initByEplb rng T args (some config) rank activeRanks dump.logicalCount with
      | none => throw .attributeError
      | some metadata =>
        match computeUpdateLayerIdsChunks a layerIds with
        | [] => return (.waiting 1, none)
        | [chunk] => return updateChunk metadata chunk []
        | chunk :: rest => return (.updating metadata chunk rest, none)
  | .updating metadata chunk rest => .ok (updateChunk metadata chunk rest)

/-- `update_expert_location`, as far as the metadata is concerned. -/
def updateMetadata (m : ExpertLocationMetadata) (update : Option (ExpertLocationMetadata × List ℕ)) :
    Except Error ExpertLocationMetadata :=
  match update with
  | none => .ok m
  | some (other, updateLayerIds) =>
    match (other.update updateLayerIds).run m with
    | .ok _ m => .ok m
    | .error e _ => .error e

/-- `on_forward_pass_end`. -/
def Manager.onForwardPassEnd (rank : ℕ) (m : Manager) (dump : DumpOutput K) : Except Error Manager := do
  let next ← m.position.next rng T args config activeRanks a layerIds rank dump
  let metadata ← updateMetadata m.metadata next.2
  return ⟨metadata, next.1⟩

end Steps

/-- The end of several passes. -/
def Manager.onForwardPassEnds {σ : Type} (rng : Random σ) [Zero K] [Add K] [Mul K] [LT K] [DecidableLT K]
    [NatCast K] [Div K] (T : TorchVec K) (args : ServerArgs) (config : ModelConfigForExpertLocation)
    (activeRanks : List Bool) (a : ManagerArgs K) (layerIds : List ℕ) (rank : ℕ) (m : Manager)
    (dumps : List (DumpOutput K)) : Except Error Manager :=
  dumps.foldlM (Manager.onForwardPassEnd rng T args config activeRanks a layerIds rank) m

end Definitions

/-! ## The chunks -/

section Chunks

variable {K : Type}

/-- The chunks are consecutive parts of the items. -/
theorem chunkList_flatten (items : List ℕ) {chunkSize : ℕ} (h : 0 < chunkSize) :
    (chunkList items chunkSize).flatten = items := by
  have hprefix (n : ℕ) : ((List.range n).map fun i => (items.drop (i * chunkSize)).take chunkSize).flatten =
      items.take (n * chunkSize) := by
    induction n with
    | zero => simp
    | succ n ih =>
      rw [List.range_succ, List.map_append, List.flatten_append, ih, Nat.succ_mul, List.take_add]
      simp
  rw [chunkList, hprefix, List.take_of_length_le]
  have hlt := Nat.lt_mul_div_succ (items.length + chunkSize - 1) h
  rw [Nat.mul_succ, Nat.mul_comm] at hlt
  omega

/-- Every layer is in the chunks as often as it is in the model. -/
theorem chunks_perm (a : ManagerArgs K) (layerIds : List ℕ) :
    (computeUpdateLayerIdsChunks a layerIds).flatten.Perm layerIds := by
  rw [computeUpdateLayerIdsChunks, chunkList_flatten]
  · exact List.perm_insertionSort _ _
  · rcases a.rebalanceLayersPerChunk with _ | _ | n
    · decide
    · decide
    · exact Nat.succ_pos n

end Chunks

/-! ## The ranks keep in step -/

section Ranks

/-- Metadata that locates the experts as the map says, with a table if the dispatch is static. -/
structure ExpertLocationMetadata.Places (args : ServerArgs) (numLayers numLogical numPhysical : ℕ)
    (phy2log : Mat ℤ) (m : ExpertLocationMetadata) : Prop where
  located : ∃ live, m.Located numLayers numLogical numPhysical live
  phy_eq : m.physicalToLogicalMap = phy2log
  table : m.logicalToRankDispatchPhysicalMap.isSome = decide (args.epDispatchAlgorithm = some .static)

namespace ExpertLocationMetadata.Places

variable {args : ServerArgs} {numLayers numLogical numPhysical : ℕ} {phy2log phy2log' : Mat ℤ}
  {m other : ExpertLocationMetadata}

theorem merge (h : m.Places args numLayers numLogical numPhysical phy2log)
    (hother : other.Places args numLayers numLogical numPhysical phy2log') (mask : ℕ → Bool) :
    (m.merge mask other).Places args numLayers numLogical numPhysical (phy2log.mergeRows mask phy2log') where
  located := by
    obtain ⟨live, hlive⟩ := h.located
    obtain ⟨live', hlive'⟩ := hother.located
    exact ⟨_, hlive.merge hlive' mask⟩
  phy_eq := by
    rw [← h.phy_eq, ← hother.phy_eq]
    rfl
  table := by
    have htable := h.table
    have htable' := hother.table
    rw [← htable] at htable' ⊢
    rw [ExpertLocationMetadata.merge]
    rcases hd : m.logicalToRankDispatchPhysicalMap with _ | d
    · rfl
    · rw [hd] at htable'
      obtain ⟨d', hd'⟩ := Option.isSome_iff_exists.mp htable'
      rw [hd']
      rfl

theorem update_eq (h : m.Places args numLayers numLogical numPhysical phy2log)
    (hother : other.Places args numLayers numLogical numPhysical phy2log') (updateLayerIds : List ℕ) :
    updateMetadata m (some (other, updateLayerIds)) =
      .ok (m.merge (fun layer => decide (layer ∈ updateLayerIds)) other) := by
  obtain ⟨live, hlive⟩ := h.located
  obtain ⟨live', hlive'⟩ := hother.located
  rw [updateMetadata, hlive.update_eq hlive' (hother.table.trans h.table.symm)]

end ExpertLocationMetadata.Places

/-- The managers of all ranks are suspended at the same point, with metadata that places the experts by one
map. -/
def InStep (args : ServerArgs) (numLayers numLogical numPhysical : ℕ) (p : ℕ → Position) : Prop :=
  (∃ done, ∀ rank, p rank = .waiting done) ∨
    ∃ (phy2log : Mat ℤ) (metadata : ℕ → ExpertLocationMetadata) (chunk : List ℕ) (rest : List (List ℕ)),
      (∀ rank, p rank = .updating (metadata rank) chunk rest) ∧
      ∀ rank, (metadata rank).Places args numLayers numLogical numPhysical phy2log

/-- All ranks make no update, or one of the same layers to the same map. -/
def SameUpdate (args : ServerArgs) (numLayers numLogical numPhysical : ℕ)
    (update : ℕ → Option (ExpertLocationMetadata × List ℕ)) : Prop :=
  (∀ rank, update rank = none) ∨
    ∃ (phy2log : Mat ℤ) (metadata : ℕ → ExpertLocationMetadata) (updateLayerIds : List ℕ),
      (∀ rank, update rank = some (metadata rank, updateLayerIds)) ∧
      ∀ rank, (metadata rank).Places args numLayers numLogical numPhysical phy2log

section InStep

variable {args : ServerArgs} {numLayers numLogical numPhysical : ℕ}

/-- The ranks update a chunk and go on to the next one together. -/
theorem updateChunk_inStep {phy2log : Mat ℤ} {metadata : ℕ → ExpertLocationMetadata}
    (h : ∀ rank, (metadata rank).Places args numLayers numLogical numPhysical phy2log) (chunk : List ℕ)
    (rest : List (List ℕ)) :
    InStep args numLayers numLogical numPhysical (fun rank => (updateChunk (metadata rank) chunk rest).1) ∧
      SameUpdate args numLayers numLogical numPhysical fun rank => (updateChunk (metadata rank) chunk rest).2 := by
  rcases rest with _ | ⟨next, rest⟩
  · exact ⟨.inl ⟨1, fun _ => rfl⟩, .inr ⟨phy2log, metadata, chunk, fun _ => rfl, h⟩⟩
  · exact ⟨.inr ⟨phy2log, metadata, next, rest, fun _ => rfl, h⟩,
      .inr ⟨phy2log, metadata, chunk, fun _ => rfl, h⟩⟩

end InStep

section Runs

variable {K σ : Type} (rng : Random σ) [Zero K] [Add K] [Mul K] [LT K] [DecidableLT K] [NatCast K] [Div K]
  (T : TorchVec K) {args : ServerArgs} {config : ModelConfigForExpertLocation} {activeRanks : List Bool}
  (a : ManagerArgs K) (layerIds : List ℕ)

/-- The server has room for the experts of the model, in the sizes that its algorithm needs. -/
structure ServerArgs.Serves (args : ServerArgs) (config : ModelConfigForExpertLocation)
    (activeRanks : List Bool) : Prop where
  fits : args.FitsModel config
  algorithm : ∃ algorithm, EplbAlgorithm.compute args.eplbAlgorithm config.numGroups args.nnodes = .ok algorithm ∧
    algorithm.Fits activeRanks config.numLogicalExperts (numPhysicalExperts args config) config.numGroups
      args.nnodes args.epSize

/-- The counts are those of the model. -/
def DumpOutput.Fits (dump : DumpOutput K) (config : ModelConfigForExpertLocation) : Prop :=
  dump.logicalCount.dim1 = config.numLayers ∧ dump.logicalCount.dim2 = config.numLogicalExperts

omit [Zero K] [Add K] [Mul K] [LT K] [DecidableLT K] [NatCast K] [Div K] in
/-- What all ranks build from the same maps places the experts by one of them. -/
theorem Shared.exists_places {numLayers numLogical numPhysical : ℕ} {live : ℕ → Set ℕ} {phy2log : Mat ℤ}
    {log2phy : Tensor3 ℤ} {table : ℕ → ℕ → ℕ → ℤ} {build : ℕ → Except Error (Option ExpertLocationMetadata)}
    (h : Shared args numLayers numLogical numPhysical live phy2log log2phy table build) (rank : ℕ) :
    ∃ m, build rank = .ok (some m) ∧ m.Places args numLayers numLogical numPhysical phy2log := by
  obtain ⟨m, hbuilt, hlocated, hphy, -, htable⟩ := h.built rank
  refine ⟨m, hbuilt, ⟨_, hlocated⟩, hphy, ?_⟩
  by_cases hstatic : args.epDispatchAlgorithm = some .static
  · rw [if_pos hstatic] at htable
    obtain ⟨d, hd, -⟩ := htable
    rw [hd, decide_eq_true hstatic]
    rfl
  · rw [if_neg hstatic] at htable
    rw [htable, decide_eq_false hstatic]
    rfl

/-- Every rank builds metadata from a dump, and all of it places the experts by one map. -/
theorem exists_rebalanced (h : args.Serves config activeRanks) {dump : DumpOutput K} (hdump : dump.Fits config) :
    ∃ (phy2log : Mat ℤ) (metadata : ℕ → ExpertLocationMetadata),
      (∀ rank, initByEplb rng T args (some config) rank activeRanks dump.logicalCount =
        .ok (some (metadata rank))) ∧
      ∀ rank, (metadata rank).Places args config.numLayers config.numLogicalExperts
        (numPhysicalExperts args config) phy2log := by
  obtain ⟨algorithm, hcompute, hfits⟩ := h.algorithm
  obtain ⟨phy2log, log2phy, table, hshared, -⟩ :=
    exists_initByEplb rng T h.fits hcompute hfits hdump.1 hdump.2
  choose metadata hbuilt hplaces using hshared.exists_places
  exact ⟨phy2log, metadata, hbuilt, hplaces⟩

omit [Zero K] [Add K] [Mul K] [LT K] [DecidableLT K] [NatCast K] [Div K] in
/-- At the start every rank keeps its own nearest experts of a mapping, and all of them place the experts by
the mapping. -/
theorem exists_started (h : args.FitsModel config) {phy2log : Mat ℤ} (hmap : CompleteMapping phy2log
    config.numLayers config.numLogicalExperts (numPhysicalExperts args config)) :
    ∃ metadata : ℕ → ExpertLocationMetadata,
      (∀ rank, initByMapping rng args (some config) rank phy2log (some rank) = .ok (some (metadata rank))) ∧
      ∀ rank, (metadata rank).Places args config.numLayers config.numLogicalExperts
        (numPhysicalExperts args config) phy2log := by
  have hbuilt (rank : ℕ) : ∃ m, initByMapping rng args (some config) rank phy2log (some rank) = .ok (some m) ∧
      m.Places args config.numLayers config.numLogicalExperts (numPhysicalExperts args config) phy2log := by
    obtain ⟨log2phy, table, hshared, -⟩ := exists_initByMapping rng h hmap (some rank)
    exact hshared.exists_places rank
  choose metadata hbuilt hplaces using hbuilt
  exact ⟨metadata, hbuilt, hplaces⟩

/-- The step lemma of the generators: no rank raises, and they go on together. -/
theorem exists_next (h : args.Serves config activeRanks) {dump : DumpOutput K} (hdump : dump.Fits config)
    {p : ℕ → Position} (hp : InStep args config.numLayers config.numLogicalExperts
      (numPhysicalExperts args config) p) :
    ∃ p' update, (∀ rank, (p rank).next rng T args config activeRanks a layerIds rank dump =
        .ok (p' rank, update rank)) ∧
      InStep args config.numLayers config.numLogicalExperts (numPhysicalExperts args config) p' ∧
      SameUpdate args config.numLayers config.numLogicalExperts (numPhysicalExperts args config) update := by
  rcases hp with ⟨done, hp⟩ | ⟨phy2log, metadata, chunk, rest, hp, hplaces⟩
  · simp only [hp, Position.next]
    by_cases hdone : done < a.rebalanceNumIterations
    · simp only [if_pos hdone]
      exact ⟨fun _ => .waiting (done + 1), fun _ => none, fun _ => rfl, .inl ⟨_, fun _ => rfl⟩, .inl fun _ => rfl⟩
    simp only [if_neg hdone]
    by_cases hneeded : checkRebalanceNeeded a dump.averageUtilizationRateOverWindow
    · obtain ⟨phy2log, metadata, hbuilt, hplaces⟩ := exists_rebalanced rng T h hdump
      simp only [hneeded, not_true, if_false, hbuilt, ok_bind]
      rcases computeUpdateLayerIdsChunks a layerIds with _ | ⟨chunk, _ | ⟨next, rest⟩⟩
      · exact ⟨fun _ => .waiting 1, fun _ => none, fun _ => rfl, .inl ⟨_, fun _ => rfl⟩, .inl fun _ => rfl⟩
      · obtain ⟨hstep, hsame⟩ := updateChunk_inStep hplaces chunk []
        exact ⟨_, _, fun _ => rfl, hstep, hsame⟩
      · exact ⟨fun rank => .updating (metadata rank) chunk (next :: rest), fun _ => none, fun _ => rfl,
          .inr ⟨phy2log, metadata, chunk, _, fun _ => rfl, hplaces⟩, .inl fun _ => rfl⟩
    · simp only [hneeded]
      exact ⟨fun _ => .waiting 1, fun _ => none, fun _ => rfl, .inl ⟨_, fun _ => rfl⟩, .inl fun _ => rfl⟩
  · simp only [hp, Position.next]
    obtain ⟨hstep, hsame⟩ := updateChunk_inStep hplaces chunk rest
    exact ⟨_, _, fun _ => rfl, hstep, hsame⟩

/-- What the managers of all ranks have in common between the passes. -/
structure RanksAgree (args : ServerArgs) (numLayers numLogical numPhysical : ℕ) (phy2log : Mat ℤ)
    (managers : ℕ → Manager) : Prop where
  places : ∀ rank, (managers rank).metadata.Places args numLayers numLogical numPhysical phy2log
  inStep : InStep args numLayers numLogical numPhysical fun rank => (managers rank).position

/-- The step lemma. -/
theorem RanksAgree.step (h : args.Serves config activeRanks) {dump : DumpOutput K} (hdump : dump.Fits config)
    {phy2log : Mat ℤ} {managers : ℕ → Manager}
    (hagree : RanksAgree args config.numLayers config.numLogicalExperts (numPhysicalExperts args config) phy2log
      managers) :
    ∃ phy2log' managers', (∀ rank, (managers rank).onForwardPassEnd rng T args config activeRanks a layerIds rank
        dump = .ok (managers' rank)) ∧
      RanksAgree args config.numLayers config.numLogicalExperts (numPhysicalExperts args config) phy2log'
        managers' := by
  obtain ⟨p', update, hnext, hstep, hsame⟩ := exists_next rng T a layerIds h hdump hagree.inStep
  simp only [Manager.onForwardPassEnd, hnext, ok_bind]
  rcases hsame with hnone | ⟨phy2log', metadata, updateLayerIds, hupdate, hplaces⟩
  · simp only [hnone, updateMetadata, ok_bind]
    exact ⟨phy2log, fun rank => ⟨(managers rank).metadata, p' rank⟩, fun _ => rfl, hagree.places, hstep⟩
  · simp only [hupdate, fun rank => (hagree.places rank).update_eq (hplaces rank) updateLayerIds, ok_bind]
    exact ⟨_, fun rank => ⟨_, p' rank⟩, fun _ => rfl, fun rank => (hagree.places rank).merge (hplaces rank) _, hstep⟩

/-- The run lemma. -/
theorem RanksAgree.run (h : args.Serves config activeRanks) {dumps : List (DumpOutput K)}
    (hdumps : ∀ dump ∈ dumps, dump.Fits config) {phy2log : Mat ℤ} {managers : ℕ → Manager}
    (hagree : RanksAgree args config.numLayers config.numLogicalExperts (numPhysicalExperts args config) phy2log
      managers) :
    ∃ phy2log' managers', (∀ rank, (managers rank).onForwardPassEnds rng T args config activeRanks a layerIds rank
        dumps = .ok (managers' rank)) ∧
      RanksAgree args config.numLayers config.numLogicalExperts (numPhysicalExperts args config) phy2log'
        managers' := by
  induction dumps generalizing phy2log managers with
  | nil => exact ⟨phy2log, managers, fun _ => rfl, hagree⟩
  | cons dump dumps ih =>
    obtain ⟨phy2log₁, managers₁, hfirst, hagree₁⟩ :=
      hagree.step rng T a layerIds h (hdumps dump List.mem_cons_self)
    obtain ⟨phy2log', managers', hrest, hagree'⟩ := ih (fun d hd => hdumps d (List.mem_cons_of_mem _ hd)) hagree₁
    refine ⟨phy2log', managers', fun rank => ?_, hagree'⟩
    rw [Manager.onForwardPassEnds, List.foldlM_cons, hfirst rank]
    exact hrest rank

/-- The layers that are still to be updated, by chunks, or how long the manager has waited. -/
def Position.remaining : Position → ℕ ⊕ List (List ℕ)
  | .waiting done => .inl done
  | .updating _ chunk rest => .inr (chunk :: rest)

/-- **The ranks agree.** Suppose that the ranks start with metadata that places the experts by one map. Then
for all dumps that the passes of a run bring, no rank raises, and at the end of each of them all ranks are at
the same chunk, and have metadata that locates the experts by one map. -/
theorem managers_agree (h : args.Serves config activeRanks) {dumps : List (DumpOutput K)}
    (hdumps : ∀ dump ∈ dumps, dump.Fits config) {phy2log : Mat ℤ} {metadata : ℕ → ExpertLocationMetadata}
    (hstart : ∀ rank, (metadata rank).Places args config.numLayers config.numLogicalExperts
      (numPhysicalExperts args config) phy2log) :
    ∃ (phy2log' : Mat ℤ) (managers : ℕ → Manager),
      (∀ rank, (Manager.mk (metadata rank) (.waiting 0)).onForwardPassEnds rng T args config activeRanks a layerIds
        rank dumps = .ok (managers rank)) ∧
      (∀ rank, ∃ live, (managers rank).metadata.Located config.numLayers config.numLogicalExperts
        (numPhysicalExperts args config) live) ∧
      (∀ rank, (managers rank).metadata.physicalToLogicalMap = phy2log') ∧
      ∀ rank rank', (managers rank).position.remaining = (managers rank').position.remaining := by
  have hagree : RanksAgree args config.numLayers config.numLogicalExperts (numPhysicalExperts args config) phy2log
      fun rank => ⟨metadata rank, .waiting 0⟩ := ⟨hstart, .inl ⟨0, fun _ => rfl⟩⟩
  obtain ⟨phy2log', managers, hrun, hplaces, hstep⟩ := hagree.run rng T a layerIds h hdumps
  refine ⟨phy2log', managers, hrun, fun rank => (hplaces rank).located, fun rank => (hplaces rank).phy_eq,
    fun rank rank' => ?_⟩
  rcases hstep with ⟨done, hp⟩ | ⟨_, _, chunk, rest, hp, -⟩
  · exact congrArg Position.remaining ((hp rank).trans (hp rank').symm)
  · exact (congrArg Position.remaining (hp rank)).trans (congrArg Position.remaining (hp rank')).symm

end Runs

end Ranks

/-! ## A rebalancing -/

section Rebalancing

theorem ExpertLocationMetadata.merge_merge (m other : ExpertLocationMetadata) (mask mask' : ℕ → Bool) :
    (m.merge mask other).merge mask' other = m.merge (fun layer => mask layer || mask' layer) other := by
  have hcell {β : Type} (f g : ℕ → β) : (fun r => if mask' r then g r else if mask r then g r else f r) =
      fun r => if mask r || mask' r then g r else f r := by
    funext r
    cases mask r <;> cases mask' r <;> rfl
  have hrows {α : Type} (u v : Mat α) : (u.mergeRows mask v).mergeRows mask' v =
      u.mergeRows (fun layer => mask layer || mask' layer) v := congrArg (Mat.mk _ _) (hcell u.cell v.cell)
  have hfirst {α : Type} (u v : Tensor3 α) : (u.mergeFirst mask v).mergeFirst mask' v =
      u.mergeFirst (fun layer => mask layer || mask' layer) v := congrArg (Tensor3.mk _ _ _) (hcell u.cell v.cell)
  simp only [ExpertLocationMetadata.merge, hrows, hfirst]
  congr 1
  rcases m.logicalToRankDispatchPhysicalMap with _ | d
  · rfl
  rcases other.logicalToRankDispatchPhysicalMap with _ | d'
  · rfl
  · exact congrArg some (hrows d d')

variable {K σ : Type} (rng : Random σ) [Zero K] [Add K] [Mul K] [LT K] [DecidableLT K] [NatCast K] [Div K]
  (T : TorchVec K) {args : ServerArgs} {config : ModelConfigForExpertLocation} {activeRanks : List Bool}
  (a : ManagerArgs K) (layerIds : List ℕ) {numLayers numLogical numPhysical : ℕ} {phy2log phy2log' : Mat ℤ}
  {m new : ExpertLocationMetadata}

/-- A chunk is updated at the end of a pass. -/
theorem onForwardPassEnd_updating (hm : m.Places args numLayers numLogical numPhysical phy2log)
    (hnew : new.Places args numLayers numLogical numPhysical phy2log') (rank : ℕ) (dump : DumpOutput K)
    (chunk : List ℕ) (rest : List (List ℕ)) :
    (Manager.mk m (.updating new chunk rest)).onForwardPassEnd rng T args config activeRanks a layerIds rank dump =
      .ok ⟨m.merge (fun layer => decide (layer ∈ chunk)) new, (updateChunk new chunk rest).1⟩ := by
  have hupdate : (updateChunk new chunk rest).2 = some (new, chunk) := by
    rcases rest with _ | ⟨next, rest⟩
    · rfl
    · rfl
  simp only [Manager.onForwardPassEnd, Position.next, hupdate, hm.update_eq hnew chunk, ok_bind]
  rfl

/-- The chunks are updated one after the other, whatever is dumped meanwhile. -/
theorem onForwardPassEnds_updating (hm : m.Places args numLayers numLogical numPhysical phy2log)
    (hnew : new.Places args numLayers numLogical numPhysical phy2log') (rank : ℕ) {chunk : List ℕ}
    {rest : List (List ℕ)} {dumps : List (DumpOutput K)} (hdumps : dumps.length = rest.length + 1) :
    (Manager.mk m (.updating new chunk rest)).onForwardPassEnds rng T args config activeRanks a layerIds rank
        dumps =
      .ok ⟨m.merge (fun layer => decide (layer ∈ chunk ++ rest.flatten)) new, .waiting 1⟩ := by
  induction rest generalizing m phy2log chunk dumps with
  | nil =>
    obtain ⟨dump, rfl⟩ := List.length_eq_one_iff.mp hdumps
    rw [Manager.onForwardPassEnds, List.foldlM_cons, onForwardPassEnd_updating rng T a layerIds hm hnew, ok_bind,
      List.flatten_nil, List.append_nil]
    rfl
  | cons next rest ih =>
    obtain ⟨dump, dumps, rfl⟩ := List.exists_cons_of_length_eq_add_one hdumps
    have hmerged := hm.merge hnew fun layer => decide (layer ∈ chunk)
    rw [Manager.onForwardPassEnds, List.foldlM_cons, onForwardPassEnd_updating rng T a layerIds hm hnew, ok_bind]
    refine (ih hmerged (Nat.succ.inj hdumps)).trans ?_
    rw [ExpertLocationMetadata.merge_merge]
    simp only [List.flatten_cons, List.mem_append, Bool.decide_or]

/-- **A rebalancing is complete.** When the manager has waited and the utilization does not forbid it, the pass
ends with the metadata of `init_by_eplb` in all layers if they are one chunk, and otherwise as many passes later
as there are chunks, whatever is dumped meanwhile. Then the manager waits again. -/
theorem rebalance_complete (h : args.Serves config activeRanks)
    (hm : m.Places args config.numLayers config.numLogicalExperts (numPhysicalExperts args config) phy2log)
    (rank : ℕ) {done : ℕ} (hdone : a.rebalanceNumIterations ≤ done) {dump : DumpOutput K}
    (hdump : dump.Fits config) (hneeded : checkRebalanceNeeded a dump.averageUtilizationRateOverWindow)
    (hlayers : layerIds ≠ []) {later : List (DumpOutput K)}
    (hlater : later.length = if (computeUpdateLayerIdsChunks a layerIds).length = 1 then 0
      else (computeUpdateLayerIdsChunks a layerIds).length) :
    ∃ new, initByEplb rng T args (some config) rank activeRanks dump.logicalCount = .ok (some new) ∧
      (Manager.mk m (.waiting done)).onForwardPassEnds rng T args config activeRanks a layerIds rank
          (dump :: later) =
        .ok ⟨m.merge (fun layer => decide (layer ∈ layerIds)) new, .waiting 1⟩ := by
  obtain ⟨phy2log', metadata, hbuilt, hplaces⟩ := exists_rebalanced rng T h hdump
  refine ⟨metadata rank, hbuilt rank, ?_⟩
  have hmem (layer : ℕ) : layer ∈ (computeUpdateLayerIdsChunks a layerIds).flatten ↔ layer ∈ layerIds :=
    (chunks_perm a layerIds).mem_iff
  rw [Manager.onForwardPassEnds, List.foldlM_cons, Manager.onForwardPassEnd]
  simp only [Position.next, if_neg (not_lt.mpr hdone), hneeded, not_true, if_false, hbuilt, ok_bind]
  rcases hchunks : computeUpdateLayerIdsChunks a layerIds with _ | ⟨chunk, _ | ⟨next, rest⟩⟩
  · obtain ⟨layer, hlayer⟩ := List.exists_mem_of_ne_nil _ hlayers
    rw [← hmem, hchunks] at hlayer
    cases hlayer
  · rw [hchunks] at hlater hmem
    obtain rfl := List.length_eq_zero_iff.mp hlater
    have hupdate := hm.update_eq (hplaces rank) chunk
    simp only [List.flatten_cons, List.flatten_nil, List.append_nil] at hmem
    simp only [hmem] at hupdate
    show ((updateMetadata m (some (metadata rank, chunk)) >>= _ : Except Error _) >>= _ : Except Error _) = _
    rw [hupdate]
    rfl
  · rw [hchunks, if_neg (by simp)] at hlater
    rw [hchunks] at hmem
    refine (onForwardPassEnds_updating rng T a layerIds hm (hplaces rank) rank hlater).trans ?_
    rw [← List.flatten_cons]
    simp only [hmem]

/-- A model of two layers. -/
def sampleLayers : ModelConfigForExpertLocation := ⟨2, 2, none⟩

theorem sampleLayers_serves : sampleArgs.Serves sampleLayers [true, true] where
  fits := ⟨by decide, by decide, by decide, by decide, by decide, by decide, by decide⟩
  algorithm := ⟨.deepseek, rfl, trivial⟩

/-- A manager that rebalances layer by layer, after every pass. -/
def sampleManagerArgs : ManagerArgs ℚ := ⟨1, some 1, 1, Nat.one_pos⟩

/-- The second expert has all the tokens. -/
def sampleDump : DumpOutput ℚ := ⟨⟨1, 2, 2, fun _ _ e => e⟩, none⟩

theorem sampleDump_fits : sampleDump.Fits sampleLayers := ⟨rfl, rfl⟩

theorem managers_agree_sample : ∃ (metadata : ℕ → ExpertLocationMetadata) (managers : ℕ → Manager),
    (∀ rank, (Manager.mk (metadata rank) (.waiting 0)).onForwardPassEnds Random.identity (TorchVec.exact ℚ)
      sampleArgs sampleLayers [true, true] sampleManagerArgs [0, 1] rank [sampleDump, sampleDump, sampleDump] =
        .ok (managers rank)) ∧
      (managers 0).metadata.physicalToLogicalMap = (managers 1).metadata.physicalToLogicalMap := by
  obtain ⟨metadata, -, hplaces⟩ := exists_started Random.identity sampleLayers_serves.fits
    (completeMapping_trivial sampleLayers_serves.fits)
  obtain ⟨phy2log, managers, hrun, -, hphy, -⟩ := managers_agree Random.identity (TorchVec.exact ℚ)
    sampleManagerArgs [0, 1] sampleLayers_serves
    (fun dump (hdump : dump ∈ [sampleDump, sampleDump, sampleDump]) => by
      obtain rfl : dump = sampleDump := by simpa using hdump
      exact sampleDump_fits) hplaces
  exact ⟨metadata, managers, hrun, (hphy 0).trans (hphy 1).symm⟩

/-- The two layers are updated at the ends of the next two passes. -/
theorem rebalance_complete_sample : ∃ m new,
    initByEplb Random.identity (TorchVec.exact ℚ) sampleArgs (some sampleLayers) 0 [true, true]
      sampleDump.logicalCount = .ok (some new) ∧
    (Manager.mk m (.waiting 1)).onForwardPassEnds Random.identity (TorchVec.exact ℚ) sampleArgs sampleLayers
        [true, true] sampleManagerArgs [0, 1] 0 [sampleDump, sampleDump, sampleDump] =
      .ok ⟨m.merge (fun layer => decide (layer ∈ [0, 1])) new, .waiting 1⟩ := by
  obtain ⟨metadata, -, hplaces⟩ := exists_started Random.identity sampleLayers_serves.fits
    (completeMapping_trivial sampleLayers_serves.fits)
  obtain ⟨new, hnew, hrun⟩ := @rebalance_complete ℚ Unit Random.identity _ _ _ _ _ _ _ (TorchVec.exact ℚ) _ _ _
    sampleManagerArgs [0, 1] _ _ sampleLayers_serves (hplaces 0) 0 1 (le_refl 1) sampleDump sampleDump_fits
    (by decide) (by decide) [sampleDump, sampleDump] (by decide)
  exact ⟨metadata 0, new, hnew, hrun⟩

end Rebalancing

end MoeSpecialization.Eplb
