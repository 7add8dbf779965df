import MoeSpecialization.Eplb.Dispatch
import MoeSpecialization.Eplb.Manager
import MoeSpecialization.Eplb.WeightExchange

/-!
# The load balancer as a system

Reference: `ExpertLocationUpdater.update` in `sglang/srt/eplb/expert_location_updater.py`, with the modules
that the system is put together from.

The state is what all ranks have between two passes: their managers with the metadata, and the weights of the
physical experts. At the end of a pass the managers go on. If they update layers, the ranks exchange the weights
by any interleaving of their messages, and then update the metadata.

In every state that is reached, every physical expert of a layer with routed experts has the weights of the
logical expert that the metadata gives it (`Reachable.holds`). So rebalancing is not seen by the tokens: each of
them is computed with the weights of the expert that the router chose (`routed_to_weights`), and no pass gets
stuck at its end (`passes_end`).
-/

namespace MoeSpecialization.Eplb

open Py Rounds

section Definitions

/-- The managers of the ranks, and their memories. -/
structure System (V : Type) (worldSize : ℕ) where
  managers : ℕ → Manager
  memory : Fin worldSize → RankMemory V

/-- The map of the ids, as the updater reads it from the metadata. -/
def ReadsMap (numLayers numPhysical : ℕ) (m : ExpertLocationMetadata) (map : ℕ → ℕ → ℤ) : Prop :=
  ∀ layer < numLayers, ∀ p < numPhysical, m.physicalToLogicalMapCpu.cell layer p = map layer p

/-- The arguments of `_update_expert_weights` on all ranks. -/
def weightUpdate (args : ServerArgs) (config : ModelConfigForExpertLocation) (numTensors : ℕ)
    (old new : ℕ → ℕ → ℤ) (updateLayerIds : List ℕ) : WeightUpdate where
  oldPhysicalToLogicalMap := old
  newPhysicalToLogicalMap := new
  updateLayerIds := updateLayerIds
  nnodes := args.nnodes
  worldSize := args.epSize
  numLocalPhysicalExperts := numPhysicalExperts args config / args.epSize
  numTensors := numTensors

variable {V : Type}

/-- What an update does to the weights: nothing if there is none, and otherwise what is left when all ranks are
through with their exchange, in any interleaving. -/
inductive Exchange (args : ServerArgs) (config : ModelConfigForExpertLocation) (numTensors : ℕ)
    (managers : ℕ → Manager) (update : ℕ → Option (ExpertLocationMetadata × List ℕ))
    (memory : Fin args.epSize → RankMemory V) : (Fin args.epSize → RankMemory V) → Prop
  | none (h : ∀ rank, update rank = none) : Exchange args config numTensors managers update memory memory
  | exchange {metadata : ℕ → ExpertLocationMetadata} {updateLayerIds : List ℕ} {old new : ℕ → ℕ → ℤ}
      (h : ∀ rank, update rank = some (metadata rank, updateLayerIds))
      (hold : ∀ rank, ReadsMap config.numLayers (numPhysicalExperts args config) (managers rank).metadata old)
      (hnew : ∀ rank, ReadsMap config.numLayers (numPhysicalExperts args config) (metadata rank) new)
      {events : List (Event (Fin args.epSize))} {s : State (Fin args.epSize) (RankMemory V) V}
      (hrun : run ((weightUpdate args config numTensors old new updateLayerIds).plan V)
        (WeightUpdate.initial (w := weightUpdate args config numTensors old new updateLayerIds) memory) events =
          some s)
      (hdone : s.Done ((weightUpdate args config numTensors old new updateLayerIds).plan V)) :
      Exchange args config numTensors managers update memory s.memory

variable {K σ : Type} (rng : Random σ) [Zero K] [Add K] [Mul K] [LT K] [DecidableLT K] [NatCast K] [Div K]
  (T : TorchVec K) (args : ServerArgs) (config : ModelConfigForExpertLocation) (activeRanks : List Bool)
  (a : ManagerArgs K) (layerIds : List ℕ) (numTensors : ℕ)

/-- The end of a pass on all ranks. -/
structure PassEnd (dump : DumpOutput K) (s s' : System V args.epSize) : Prop where
  step : ∃ update : ℕ → Option (ExpertLocationMetadata × List ℕ),
    (∀ rank, (s.managers rank).position.next rng T args config activeRanks a layerIds rank dump =
      .ok ((s'.managers rank).position, update rank)) ∧
    (∀ rank, updateMetadata (s.managers rank).metadata (update rank) = .ok (s'.managers rank).metadata) ∧
    Exchange args config numTensors s.managers update s.memory s'.memory

/-- Every physical expert of the layers has the weights of its logical expert. -/
def Loaded (expertWeights : ℕ → ℕ → ℤ → V) (phy2log : Mat ℤ) (memory : Fin args.epSize → RankMemory V) : Prop :=
  ∀ rank, ∀ l ∈ layerIds, ∀ i < numTensors, ∀ y < numPhysicalExperts args config / args.epSize,
    (memory rank).weights l i y =
      expertWeights l i (phy2log.cell l (rank * (numPhysicalExperts args config / args.epSize) + y))

/-- The states that are reached from loaded weights, by any passes. -/
inductive Reachable (expertWeights : ℕ → ℕ → ℤ → V) : System V args.epSize → Prop
  | start {s : System V args.epSize} (phy2log : Mat ℤ)
      (hplaces : ∀ rank, (s.managers rank).metadata.Places args config.numLayers config.numLogicalExperts
        (numPhysicalExperts args config) phy2log)
      (hposition : ∀ rank, (s.managers rank).position = .waiting 0)
      (hloaded : Loaded args config layerIds numTensors expertWeights phy2log s.memory) :
      Reachable expertWeights s
  | step {s s' : System V args.epSize} {dump : DumpOutput K} (hs : Reachable expertWeights s)
      (hdump : dump.Fits config)
      (hstep : PassEnd rng T args config activeRanks a layerIds numTensors dump s s') : Reachable expertWeights s'

end Definitions

/-! ## The layers of an update -/

section Layers

variable {K σ : Type} (rng : Random σ) [Zero K] [Add K] [Mul K] [LT K] [DecidableLT K] [NatCast K] [Div K]
  (T : TorchVec K) {args : ServerArgs} {config : ModelConfigForExpertLocation} {activeRanks : List Bool}
  (a : ManagerArgs K) {layerIds : List ℕ}

/-- Different layers with routed experts. -/
def Layers (layerIds layers : List ℕ) : Prop := layers.Nodup ∧ ∀ layer ∈ layers, layer ∈ layerIds

/-- What is left to update are different layers with routed experts. -/
def Position.Chunked (layerIds : List ℕ) : Position → Prop
  | .waiting _ => True
  | .updating _ chunk rest => Layers layerIds (chunk ++ rest.flatten)

/-- A chunk is updated, and the others are left. -/
theorem updateChunk_chunked {chunk : List ℕ} {rest : List (List ℕ)} (h : Layers layerIds (chunk ++ rest.flatten))
    (metadata : ExpertLocationMetadata) :
    (updateChunk metadata chunk rest).1.Chunked layerIds ∧
      ∀ u ∈ (updateChunk metadata chunk rest).2, Layers layerIds u.2 := by
  have hchunk : Layers layerIds chunk :=
    ⟨(List.nodup_append.mp h.1).1, fun layer hlayer => h.2 layer (List.mem_append_left _ hlayer)⟩
  rcases rest with _ | ⟨next, rest⟩
  · refine ⟨trivial, fun u hu => ?_⟩
    rw [← Option.some.inj hu]
    exact hchunk
  · refine ⟨⟨(List.nodup_append.mp h.1).2.1, fun layer hlayer => h.2 layer (List.mem_append_right _ hlayer)⟩,
      fun u hu => ?_⟩
    rw [← Option.some.inj hu]
    exact hchunk

/-- The generator goes through the chunks. -/
theorem Position.Chunked.next (h : layerIds.Nodup) {rank : ℕ} {dump : DumpOutput K} {p p' : Position}
    {update : Option (ExpertLocationMetadata × List ℕ)} (hp : p.Chunked layerIds)
    (hnext : p.next rng T args config activeRanks a layerIds rank dump = .ok (p', update)) :
    p'.Chunked layerIds ∧ ∀ u ∈ update, Layers layerIds u.2 := by
  have hnone : ∀ u ∈ (none : Option (ExpertLocationMetadata × List ℕ)), Layers layerIds u.2 :=
    fun u hu => absurd hu (Option.not_mem_none u)
  have hperm := chunks_perm a layerIds
  have hall : Layers layerIds (computeUpdateLayerIdsChunks a layerIds).flatten :=
    ⟨hperm.nodup_iff.mpr h, fun layer => hperm.mem_iff.mp⟩
  cases p with
  | waiting done =>
    simp only [Position.next] at hnext
    split at hnext
    · cases hnext
      exact ⟨trivial, hnone⟩
    split at hnext
    · cases hnext
      exact ⟨trivial, hnone⟩
    rcases hinit : initByEplb rng T args (some config) rank activeRanks dump.logicalCount with e | ⟨_ | metadata⟩
    · rw [hinit] at hnext
      cases hnext
    · rw [hinit] at hnext
      cases hnext
    · rw [hinit, ok_bind] at hnext
      rcases hchunks : computeUpdateLayerIdsChunks a layerIds with _ | ⟨chunk, _ | ⟨next, rest⟩⟩
      · rw [hchunks] at hnext
        cases hnext
        exact ⟨trivial, hnone⟩
      · rw [hchunks] at hnext hall
        have heq : updateChunk metadata chunk [] = (p', update) := Except.ok.inj hnext
        have hchunked := @updateChunk_chunked layerIds chunk [] hall metadata
        rwa [heq] at hchunked
      · rw [hchunks] at hnext hall
        cases hnext
        exact ⟨hall, hnone⟩
  | updating metadata chunk rest =>
    have heq : updateChunk metadata chunk rest = (p', update) := Except.ok.inj hnext
    have hchunked := updateChunk_chunked hp metadata
    rwa [heq] at hchunked

end Layers

/-! ## The weights -/

section Weights

variable {args : ServerArgs} {config : ModelConfigForExpertLocation} {layerIds : List ℕ} {numTensors : ℕ}

namespace ExpertLocationMetadata.Places

variable {numLayers numLogical numPhysical : ℕ} {phy2log : Mat ℤ} {m : ExpertLocationMetadata}

/-- The copy on the CPU is the map. -/
theorem readsMap (h : m.Places args numLayers numLogical numPhysical phy2log) :
    ReadsMap numLayers numPhysical m phy2log.cell := by
  obtain ⟨live, hlocated⟩ := h.located
  intro layer hlayer p hp
  rw [hlocated.phy_cpu.cell_eq layer hlayer p hp, h.phy_eq]

/-- Every entry of the map is a logical expert, and every logical expert is an entry. -/
theorem map_spec (h : m.Places args numLayers numLogical numPhysical phy2log) {layer : ℕ}
    (hlayer : layer < numLayers) :
    (∀ p < numPhysical, ∃ e < numLogical, phy2log.cell layer p = (e : ℤ)) ∧
      ∀ e < numLogical, ∃ p < numPhysical, phy2log.cell layer p = (e : ℤ) := by
  obtain ⟨live, hlocated⟩ := h.located
  have hlayer := hlocated.layer layer hlayer
  rw [h.phy_eq] at hlayer
  refine ⟨fun p hp => ?_, fun e he => ?_⟩
  · obtain ⟨hnonneg, hlt⟩ := hlayer.logical p hp
    obtain ⟨e, he⟩ := Int.eq_ofNat_of_zero_le hnonneg
    rw [he] at hlt
    exact ⟨e, Int.ofNat_lt.mp hlt, he⟩
  · obtain ⟨p, hp, -, hpe⟩ := hlayer.slot e he 0 (hlayer.valid_pos e he)
    exact ⟨p, hlayer.live_lt p hp, hpe⟩

end ExpertLocationMetadata.Places

theorem epSize_mul (h : args.FitsModel config) :
    args.epSize * (numPhysicalExperts args config / args.epSize) = numPhysicalExperts args config :=
  Nat.mul_div_cancel' (Nat.dvd_of_mod_eq_zero h.2.physical_ep)

/-- The place of a slot of a rank. -/
theorem slot_lt (h : args.FitsModel config) {rank y : ℕ} (hrank : rank < args.epSize)
    (hy : y < numPhysicalExperts args config / args.epSize) :
    rank * (numPhysicalExperts args config / args.epSize) + y < numPhysicalExperts args config := by
  calc rank * (numPhysicalExperts args config / args.epSize) + y
      < (rank + 1) * (numPhysicalExperts args config / args.epSize) := by rw [Nat.succ_mul]; omega
    _ ≤ args.epSize * (numPhysicalExperts args config / args.epSize) := Nat.mul_le_mul_right _ hrank
    _ = numPhysicalExperts args config := epSize_mul h

variable {old new : ℕ → ℕ → ℤ} {phy2log phy2log' : Mat ℤ} {m m' : ExpertLocationMetadata} {layers : List ℕ}

/-- The weights can be exchanged: what is needed is somewhere. -/
theorem weightUpdate_wellFormed (h : args.FitsModel config)
    (hlayerIds : ∀ layer ∈ layerIds, layer < config.numLayers) (hlayers : Layers layerIds layers)
    (hm : m.Places args config.numLayers config.numLogicalExperts (numPhysicalExperts args config) phy2log)
    (hm' : m'.Places args config.numLayers config.numLogicalExperts (numPhysicalExperts args config) phy2log')
    (hold : ∀ layer < config.numLayers, ∀ p < numPhysicalExperts args config, phy2log.cell layer p = old layer p)
    (hnew : ∀ layer < config.numLayers, ∀ p < numPhysicalExperts args config, phy2log'.cell layer p = new layer p) :
    (weightUpdate args config numTensors old new layers).WellFormed where
  nodup := hlayers.1
  nnodes_pos := h.2.fits.nodes_pos
  nnodes_le := h.2.fits.nodes_le
  covered := by
    intro layer hlayer p hp
    have hlayer := hlayerIds layer (hlayers.2 layer hlayer)
    have hslots : args.epSize * (numPhysicalExperts args config / args.epSize) = numPhysicalExperts args config :=
      epSize_mul h
    have hp : p < numPhysicalExperts args config := by rwa [← hslots]
    obtain ⟨e, he, hpe⟩ := (hm'.map_spec hlayer).1 p hp
    obtain ⟨q, hq, hqe⟩ := (hm.map_spec hlayer).2 e he
    refine ⟨q, ?_, ?_⟩
    · show q < args.epSize * (numPhysicalExperts args config / args.epSize)
      rwa [hslots]
    · show old layer q = new layer p
      rw [← hold layer hlayer q hq, ← hnew layer hlayer p hp, hqe, hpe]

variable {V : Type} {expertWeights : ℕ → ℕ → ℤ → V} {memory : Fin args.epSize → RankMemory V}

/-- Loaded weights are those of the old map of an update. -/
theorem Loaded.hasWeights (h : args.FitsModel config) (hlayerIds : ∀ layer ∈ layerIds, layer < config.numLayers)
    (hlayers : Layers layerIds layers) (hloaded : Loaded args config layerIds numTensors expertWeights phy2log memory)
    (hold : ∀ layer < config.numLayers, ∀ p < numPhysicalExperts args config, phy2log.cell layer p = old layer p) :
    WeightUpdate.HasWeights (w := weightUpdate args config numTensors old new layers) expertWeights memory old := by
  intro rank layer hlayer i hi y hy
  have hmem := hlayers.2 layer hlayer
  refine (hloaded rank layer hmem i hi y hy).trans (congrArg _ ?_)
  exact hold layer (hlayerIds layer hmem) _ (slot_lt h rank.isLt hy)

/-- After the exchange the weights are loaded for the merged map. -/
theorem Loaded.exchanged (h : args.FitsModel config) (hlayerIds : ∀ layer ∈ layerIds, layer < config.numLayers)
    (hloaded : Loaded args config layerIds numTensors expertWeights phy2log memory)
    {memory' : Fin args.epSize → RankMemory V}
    (hweights : WeightUpdate.HasWeights (w := weightUpdate args config numTensors old new layers) expertWeights
      memory' new)
    (hothers : ∀ rank, ∀ layer ∉ layers, (memory' rank).weights layer = (memory rank).weights layer)
    (hnew : ∀ layer < config.numLayers, ∀ p < numPhysicalExperts args config, phy2log'.cell layer p = new layer p) :
    Loaded args config layerIds numTensors expertWeights
      (phy2log.mergeRows (fun layer => decide (layer ∈ layers)) phy2log') memory' := by
  intro rank layer hmem i hi y hy
  show _ = expertWeights layer i ((if decide (layer ∈ layers) then phy2log'.cell layer else phy2log.cell layer) _)
  by_cases hlayer : layer ∈ layers
  · rw [if_pos (decide_eq_true hlayer), hnew layer (hlayerIds layer hmem) _ (slot_lt h rank.isLt hy)]
    exact hweights rank layer hlayer i hi y hy
  · rw [if_neg (by simpa using hlayer), hothers rank layer hlayer]
    exact hloaded rank layer hmem i hi y hy

end Weights

/-! ## Whole runs -/

section Runs

variable {K σ : Type} (rng : Random σ) [Zero K] [Add K] [Mul K] [LT K] [DecidableLT K] [NatCast K] [Div K]
  (T : TorchVec K) {args : ServerArgs} {config : ModelConfigForExpertLocation} {activeRanks : List Bool}
  (a : ManagerArgs K) {layerIds : List ℕ} {numTensors : ℕ} {V : Type} {expertWeights : ℕ → ℕ → ℤ → V}

/-- The invariant: the ranks agree, and the weights are where their common map says. -/
structure System.Holds (layerIds : List ℕ) (config : ModelConfigForExpertLocation) (numTensors : ℕ)
    (expertWeights : ℕ → ℕ → ℤ → V) (phy2log : Mat ℤ) (s : System V args.epSize) : Prop where
  agree : RanksAgree args config.numLayers config.numLogicalExperts (numPhysicalExperts args config) phy2log
    s.managers
  chunked : ∀ rank, (s.managers rank).position.Chunked layerIds
  loaded : Loaded args config layerIds numTensors expertWeights phy2log s.memory

/-- The layers with routed experts are different layers of the model. -/
structure LayersFit (config : ModelConfigForExpertLocation) (layerIds : List ℕ) : Prop where
  nodup : layerIds.Nodup
  layer_lt : ∀ layer ∈ layerIds, layer < config.numLayers

variable {phy2log : Mat ℤ} {s s' : System V args.epSize} {dump : DumpOutput K}

/-- The end of a pass keeps the invariant, in every interleaving of an exchange. -/
theorem System.Holds.passEnd (h : args.Serves config activeRanks) (hlayers : LayersFit config layerIds)
    (hdump : dump.Fits config) (hs : s.Holds layerIds config numTensors expertWeights phy2log)
    (hstep : PassEnd rng T args config activeRanks a layerIds numTensors dump s s') :
    ∃ phy2log', s'.Holds layerIds config numTensors expertWeights phy2log' := by
  obtain ⟨update, hnext, hupdate, hexchange⟩ := hstep.step
  obtain ⟨p', update', hnext', hinStep, hsame⟩ := exists_next rng T a layerIds h hdump hs.agree.inStep
  have hboth (rank : ℕ) : (s'.managers rank).position = p' rank ∧ update rank = update' rank :=
    Prod.mk.inj (Except.ok.inj ((hnext rank).symm.trans (hnext' rank)))
  have hposition : (fun rank => (s'.managers rank).position) = p' := funext fun rank => (hboth rank).1
  obtain rfl : update = update' := funext fun rank => (hboth rank).2
  have hchunked (rank : ℕ) := (hs.chunked rank).next rng T a hlayers.nodup (hnext rank)
  rw [← hposition] at hinStep
  rcases hsame with hnone | ⟨phy2log', metadata, layers, hsome, hplaces⟩
  · -- nothing is updated
    have hmetadata (rank : ℕ) : (s'.managers rank).metadata = (s.managers rank).metadata := by
      have hrank := hupdate rank
      rw [hnone rank] at hrank
      exact (Except.ok.inj hrank).symm
    refine ⟨phy2log, ⟨fun rank => ?_, hinStep⟩, fun rank => (hchunked rank).1, ?_⟩
    · rw [hmetadata rank]
      exact hs.agree.places rank
    · generalize s'.memory = memory' at hexchange ⊢
      cases hexchange with
      | none => exact hs.loaded
      | exchange hsome =>
        have hsome := (hnone 0).symm.trans (hsome 0)
        cases hsome
  · -- the layers of a chunk are exchanged and updated
    have hlayers' : Layers layerIds layers := (hchunked 0).2 _ (hsome 0)
    refine ⟨phy2log.mergeRows (fun layer => decide (layer ∈ layers)) phy2log', ⟨fun rank => ?_, hinStep⟩,
      fun rank => (hchunked rank).1, ?_⟩
    · have hrank := hupdate rank
      rw [hsome rank, (hs.agree.places rank).update_eq (hplaces rank)] at hrank
      rw [← Except.ok.inj hrank]
      exact (hs.agree.places rank).merge (hplaces rank) _
    · generalize s'.memory = memory' at hexchange ⊢
      cases hexchange with
      | none hnone =>
        have hnone := (hsome 0).symm.trans (hnone 0)
        cases hnone
      | @exchange metadata' layers' old new hsome' hold hnew events t hrun hdone =>
        obtain ⟨hmetadata, rfl⟩ := Prod.mk.inj (Option.some.inj ((hsome 0).symm.trans (hsome' 0)))
        have hold' : ∀ layer < config.numLayers, ∀ p < numPhysicalExperts args config,
            phy2log.cell layer p = old layer p := fun layer hlayer p hp =>
          ((hs.agree.places 0).readsMap layer hlayer p hp).symm.trans (hold 0 layer hlayer p hp)
        have hnew' : ∀ layer < config.numLayers, ∀ p < numPhysicalExperts args config,
            phy2log'.cell layer p = new layer p := by
          intro layer hlayer p hp
          have hread := hnew 0 layer hlayer p hp
          rw [← hmetadata] at hread
          exact ((hplaces 0).readsMap layer hlayer p hp).symm.trans hread
        have hformed : (weightUpdate args config numTensors old new layers).WellFormed :=
          weightUpdate_wellFormed h.fits hlayers.layer_lt hlayers' (hs.agree.places 0) (hplaces 0) hold' hnew'
        obtain ⟨hweights, hothers⟩ := hformed.of_done (hs.loaded.hasWeights h.fits hlayers.layer_lt hlayers' hold')
          hrun hdone
        exact hs.loaded.exchanged h.fits hlayers.layer_lt hweights hothers hnew'

/-- Every state that is reached satisfies the invariant. -/
theorem Reachable.holds (h : args.Serves config activeRanks) (hlayers : LayersFit config layerIds)
    (hs : Reachable rng T args config activeRanks a layerIds numTensors expertWeights s) :
    ∃ phy2log, s.Holds layerIds config numTensors expertWeights phy2log := by
  induction hs with
  | start phy2log hplaces hposition hloaded =>
    refine ⟨phy2log, ⟨hplaces, .inl ⟨0, hposition⟩⟩, fun rank => ?_, hloaded⟩
    rw [hposition rank]
    trivial
  | step _ hdump hstep ih =>
    obtain ⟨phy2log, hholds⟩ := ih
    exact hholds.passEnd rng T a h hlayers hdump hstep

/-- From a state of the invariant the pass can be ended. -/
theorem System.Holds.exists_passEnd (h : args.Serves config activeRanks) (hlayers : LayersFit config layerIds)
    (hdump : dump.Fits config) (hs : s.Holds layerIds config numTensors expertWeights phy2log) :
    ∃ s', PassEnd rng T args config activeRanks a layerIds numTensors dump s s' := by
  obtain ⟨p', update, hnext, -, hsame⟩ := exists_next rng T a layerIds h hdump hs.agree.inStep
  rcases hsame with hnone | ⟨phy2log', metadata, layers, hsome, hplaces⟩
  · refine ⟨⟨fun rank => ⟨(s.managers rank).metadata, p' rank⟩, s.memory⟩, update, hnext, fun rank => ?_,
      .none hnone⟩
    rw [hnone rank]
    rfl
  · have hlayers' : Layers layerIds layers :=
      ((hs.chunked 0).next rng T a hlayers.nodup (hnext 0)).2 _ (hsome 0)
    have hformed : (weightUpdate args config numTensors phy2log.cell phy2log'.cell layers).WellFormed :=
      weightUpdate_wellFormed h.fits hlayers.layer_lt hlayers' (hs.agree.places 0) (hplaces 0)
        (fun _ _ _ _ => rfl) fun _ _ _ _ => rfl
    have hweights : WeightUpdate.HasWeights (w := weightUpdate args config numTensors phy2log.cell phy2log'.cell
        layers) expertWeights s.memory phy2log.cell :=
      hs.loaded.hasWeights h.fits hlayers.layer_lt hlayers' fun _ _ _ _ => rfl
    obtain ⟨events, t, hrun, hdone⟩ := Contract.exists_run_done
      (Contract.inv_init (hformed.holds_initial hweights))
    refine ⟨⟨fun rank => ⟨(s.managers rank).metadata.merge (fun layer => decide (layer ∈ layers)) (metadata rank),
      p' rank⟩, t.memory⟩, update, hnext, fun rank => ?_, .exchange hsome
        (fun rank => (hs.agree.places rank).readsMap) (fun rank => (hplaces rank).readsMap) hrun hdone⟩
    rw [hsome rank]
    exact (hs.agree.places rank).update_eq (hplaces rank) layers

/-- **No pass gets stuck at its end.** In every state that is reached, for every dump, no rank raises and the
ranks can exchange the weights of their chunk, so that the run goes on. -/
theorem passes_end (h : args.Serves config activeRanks) (hlayers : LayersFit config layerIds)
    (hs : Reachable rng T args config activeRanks a layerIds numTensors expertWeights s) (hdump : dump.Fits config) :
    ∃ s', PassEnd rng T args config activeRanks a layerIds numTensors dump s s' ∧
      Reachable rng T args config activeRanks a layerIds numTensors expertWeights s' := by
  obtain ⟨phy2log, hholds⟩ := hs.holds rng T a h hlayers
  obtain ⟨s', hstep⟩ := hholds.exists_passEnd rng T a h hlayers hdump
  exact ⟨s', hstep, .step hs hdump hstep⟩

/-- **Rebalancing is not seen by the tokens.** In every state that is reached, for every layer with routed
experts, every choice of the router and all random numbers: a rank sends each choice to a physical expert of some
rank that has the weights of the chosen logical expert, also between the chunks of a rebalancing. -/
theorem routed_to_weights (h : args.Serves config activeRanks) (hlayers : LayersFit config layerIds)
    (hs : Reachable rng T args config activeRanks a layerIds numTensors expertWeights s) (rank : ℕ) {layer : ℕ}
    (hlayer : layer ∈ layerIds) {algorithm : EpDispatchAlgorithm}
    (halgorithm : args.epDispatchAlgorithm = some algorithm) {topkIds : Mat ℤ}
    (hids : ∀ t < topkIds.rows, ∀ k < topkIds.cols,
      0 ≤ topkIds.cell t k ∧ topkIds.cell t k < config.numLogicalExperts) (draws : ℕ → ℕ → ℕ) :
    ∃ info physical,
      ExpertLocationDispatchInfo.initNew (some algorithm) (some (s.managers rank).metadata) layer =
        .ok (some info) ∧
      topkIdsLogicalToPhysical topkIds (some info) draws = .ok physical ∧
      ∀ t < topkIds.rows, ∀ k < topkIds.cols, ∃ owner : Fin args.epSize,
        ∃ y < numPhysicalExperts args config / args.epSize,
          physical.cell t k = (owner * (numPhysicalExperts args config / args.epSize) + y : ℕ) ∧
          ∀ i < numTensors, (s.memory owner).weights layer i y = expertWeights layer i (topkIds.cell t k) := by
  obtain ⟨phy2log, hholds⟩ := hs.holds rng T a h hlayers
  have hplaces := hholds.agree.places rank
  obtain ⟨live, hlocated⟩ := hplaces.located
  have hlt := hlayers.layer_lt layer hlayer
  have hstatic : algorithm = .static → (s.managers rank).metadata.logicalToRankDispatchPhysicalMap.isSome := by
    rintro rfl
    rw [hplaces.table]
    exact decide_eq_true halgorithm
  obtain ⟨info, physical, hinfo, hphysical, -, hcell⟩ := hlocated.exists_topkIds hlt hstatic hids draws
  refine ⟨info, physical, hinfo, hphysical, fun t ht k hk => ?_⟩
  obtain ⟨p, hp, hval, hchosen⟩ := hcell t ht k hk
  have hp : p < numPhysicalExperts args config := (hlocated.layer layer hlt).live_lt p hp
  rw [← epSize_mul h.fits] at hp
  have hlocal : 0 < numPhysicalExperts args config / args.epSize := by
    rcases Nat.eq_zero_or_pos (numPhysicalExperts args config / args.epSize) with hzero | hpos
    · rw [hzero] at hp
      exact absurd hp (Nat.not_lt_zero p)
    · exact hpos
  -- the owner of the slot, and its place there
  have howner : p / (numPhysicalExperts args config / args.epSize) < args.epSize :=
    Nat.div_lt_of_lt_mul (by rwa [Nat.mul_comm])
  refine ⟨⟨_, howner⟩, p % (numPhysicalExperts args config / args.epSize), Nat.mod_lt p hlocal, ?_, fun i hi => ?_⟩
  · rw [hval]
    exact congrArg _ (Nat.div_add_mod' p _).symm
  · rw [hholds.loaded _ layer hlayer i hi _ (Nat.mod_lt p hlocal), ← hchosen, hplaces.phy_eq]
    exact congrArg (fun q => expertWeights layer i (phy2log.cell layer q)) (Nat.div_add_mod' p _)

end Runs

/-! ## A run -/

section Sample

/-- The weights of an expert are its id, and every rank has those of the trivial mapping. -/
def sampleSystem (metadata : ℕ → ExpertLocationMetadata) : System ℤ sampleArgs.epSize :=
  ⟨fun rank => ⟨metadata rank, .waiting 0⟩, fun rank => ⟨fun _ _ y => ((rank * 2 + y) % 2 : ℕ), fun _ _ => 0⟩⟩

theorem sampleLayers_fit : LayersFit sampleLayers [0, 1] := ⟨by decide, by decide⟩

/-- A system that has just started. -/
theorem exists_sampleSystem : ∃ metadata : ℕ → ExpertLocationMetadata,
    Reachable Random.identity (TorchVec.exact ℚ) sampleArgs sampleLayers [true, true] sampleManagerArgs [0, 1] 1
      (fun _ _ e => e) (sampleSystem metadata) := by
  obtain ⟨metadata, -, hplaces⟩ := exists_started Random.identity sampleLayers_serves.fits
    (completeMapping_trivial sampleLayers_serves.fits)
  exact ⟨metadata, .start _ hplaces (fun _ => rfl) fun rank l hl i hi y hy => rfl⟩

theorem passes_end_sample : ∃ metadata s', PassEnd Random.identity (TorchVec.exact ℚ) sampleArgs sampleLayers
    [true, true] sampleManagerArgs [0, 1] 1 sampleDump (sampleSystem metadata) s' := by
  obtain ⟨metadata, hs⟩ := exists_sampleSystem
  obtain ⟨s', hstep, -⟩ := passes_end Random.identity (TorchVec.exact ℚ) sampleManagerArgs sampleLayers_serves
    sampleLayers_fit hs sampleDump_fits
  exact ⟨metadata, s', hstep⟩

/-- A token of the second expert meets its weights. -/
theorem routed_to_weights_sample : ∃ metadata info physical,
    ExpertLocationDispatchInfo.initNew (some .dynamic) (some ((sampleSystem metadata).managers 0).metadata) 1 =
      .ok (some info) ∧
    topkIdsLogicalToPhysical ⟨1, 1, fun _ _ => 1⟩ (some info) (fun _ _ => 1) = .ok physical ∧
    ∃ owner : Fin sampleArgs.epSize, ∃ y < 2, physical.cell 0 0 = (owner * 2 + y : ℕ) ∧
      ((sampleSystem metadata).memory owner).weights 1 0 y = 1 := by
  obtain ⟨metadata, hs⟩ := exists_sampleSystem
  obtain ⟨info, physical, hinfo, hphysical, hcell⟩ := routed_to_weights Random.identity (TorchVec.exact ℚ)
    sampleManagerArgs sampleLayers_serves sampleLayers_fit hs 0 (List.mem_cons_of_mem 0 List.mem_cons_self) rfl
    (fun t (_ : t < (⟨1, 1, fun _ _ => 1⟩ : Mat ℤ).rows) k _ => ⟨Int.one_nonneg, show (1 : ℤ) < 2 by decide⟩)
    fun _ _ => 1
  obtain ⟨owner, y, hy, hval, hweights⟩ := hcell 0 Nat.one_pos 0 Nat.one_pos
  exact ⟨metadata, info, physical, hinfo, hphysical, owner, y, hy, hval, hweights 0 Nat.one_pos⟩

end Sample

end MoeSpecialization.Eplb
