import MoeSpecialization.Eplb.Location

/-!
# Building and updating the metadata

Reference: `ExpertLocationMetadata` in `sglang/srt/eplb/expert_location.py`.

The initial metadata and that of every rebalancing locates the experts (`exists_initByMapping`,
`exists_initByEplb`), and so does the result of updating some of the layers of one by those of another
(`Located.update_eq`, `Located.merge`).
-/

namespace MoeSpecialization.Eplb

open Py Filling

/-! ## The algorithms -/

section Algorithms

/-- The sizes that an algorithm asserts to fit. With inactive ranks, the others have room for all experts. -/
def EplbAlgorithm.Fits (algorithm : EplbAlgorithm) (activeRanks : List Bool) (numLogical numPhysical : ℕ)
    (numGroups : Option ℕ) (nnodes epSize : ℕ) : Prop :=
  let grouped := ∃ groups, numGroups = some groups ∧ numLogical % groups = 0 ∧ groups % nnodes = 0
  match algorithm with
  | .deepseek | .deepseekVec => True
  | .deepseekHierarchical | .deepseekVecHierarchical => grouped
  | .elasticityAware => activeRanks.length = epSize ∧
    if activeRanks.count true < epSize then numLogical ≤ numPhysical / epSize * activeRanks.count true else grouped

/-- The physical experts that an algorithm places experts on. -/
def EplbAlgorithm.live (algorithm : EplbAlgorithm) (activeRanks : List Bool) (numPhysical epSize : ℕ) : Set ℕ :=
  {s | s < numPhysical ∧
    (algorithm = .elasticityAware → activeRanks[s / (numPhysical / epSize)]? = some true)}

/-- The sizes that a rebalancing relies on. -/
structure EplbFits (epSize nnodes numLogical numPhysical : ℕ) : Prop where
  ep_pos : 0 < epSize
  nodes_pos : 0 < nnodes
  ep_nodes : epSize % nnodes = 0
  num_pos : 0 < numLogical
  num_le : numLogical ≤ numPhysical
  physical_ep : numPhysical % epSize = 0

variable {K : Type} [Zero K] [Add K] [Mul K] [LT K] [DecidableLT K] [NatCast K] [Div K]
  {epSize nnodes numPhysical : ℕ} {numGroups : Option ℕ} {activeRanks : List Bool} {tokens : Tensor3 K}

theorem EplbAlgorithm.live_eq {algorithm : EplbAlgorithm} (h : algorithm ≠ .elasticityAware) :
    algorithm.live activeRanks numPhysical epSize = Set.Iio numPhysical := by
  ext s
  exact and_iff_left fun heq => absurd heq h

/-- Every algorithm places the experts on its live physical experts, in maps that agree. -/
theorem EplbAlgorithm.exists_placement (algorithm : EplbAlgorithm) (T : TorchVec K) (hlayers : 0 < tokens.dim1)
    (h : EplbFits epSize nnodes tokens.dim2 numPhysical)
    (hfits : algorithm.Fits activeRanks tokens.dim2 numPhysical numGroups nnodes epSize) :
    ∃ phy2log log2phy logcnt,
      algorithm.rebalanceExperts T tokens numPhysical (numPhysical / epSize) numGroups nnodes activeRanks =
        .ok (phy2log, log2phy, logcnt) ∧
      (phy2log.rows = tokens.dim1 ∧ phy2log.cols = numPhysical) ∧
      (log2phy.dim0 = tokens.dim1 ∧ log2phy.dim1 = tokens.dim2) ∧
      ∀ r < tokens.dim1,
        MapsAgree tokens.dim2 (algorithm.live activeRanks numPhysical epSize) log2phy.dim2 (phy2log.cell r)
          (log2phy.cell r) (logcnt.cell r) ∧
        ∀ s < numPhysical, 0 ≤ phy2log.cell r s ∧ phy2log.cell r s < tokens.dim2 := by
  have hphysical : 0 < numPhysical := lt_of_lt_of_le h.num_pos h.num_le
  have hdvd : epSize ∣ numPhysical := Nat.dvd_of_mod_eq_zero h.physical_ep
  have hgpus : numPhysical / (numPhysical / epSize) = epSize := Nat.div_div_self hdvd hphysical.ne'
  have hlocal : numPhysical / epSize ≠ 0 := (Nat.div_pos (Nat.le_of_dvd hphysical hdvd) h.ep_pos).ne'
  have hglobal : Divisible tokens.dim2 numPhysical 1 1 epSize :=
    ⟨h.num_pos, Nat.one_pos, h.ep_pos, Nat.mod_one _, Nat.mod_one _, Nat.mod_one _, h.physical_ep, h.num_le⟩
  have hgrouped {groups : ℕ} (hlogical : tokens.dim2 % groups = 0) (hnodes : groups % nnodes = 0) :
      Divisible tokens.dim2 numPhysical groups nnodes epSize :=
    ⟨h.num_pos, h.nodes_pos, h.ep_pos, hlogical, hnodes, h.ep_nodes, h.physical_ep, h.num_le⟩
  -- `deepseek.rebalance_experts`, for the global policy and for the hierarchical one
  have hdeepseek {hierarchical : Bool} {groups nodes : ℕ}
      (hpolicy : if hierarchical then numGroups = some groups ∧ nnodes = nodes else groups = 1 ∧ nodes = 1)
      (hdiv : Divisible tokens.sumFirst.cols numPhysical groups nodes epSize) :
      ∃ phy2log log2phy logcnt,
        Eplb.rebalanceExperts T.toTorch tokens.sumFirst numPhysical numGroups nnodes epSize hierarchical =
          .ok (phy2log, log2phy, logcnt) ∧
        (phy2log.rows = tokens.dim1 ∧ phy2log.cols = numPhysical) ∧
        (log2phy.dim0 = tokens.dim1 ∧ log2phy.dim1 = tokens.dim2) ∧
        ∀ r < tokens.dim1, MapsAgree tokens.dim2 (Set.Iio numPhysical) log2phy.dim2 (phy2log.cell r)
          (log2phy.cell r) (logcnt.cell r) := by
    have hrows : 0 < tokens.sumFirst.rows := hlayers
    obtain ⟨phy2log, phyrank, logcnt, log2phy, hrun, hscatter, hphy, hlog, -, hmaps⟩ :=
      exists_maps T.toTorch hrows hdiv
    refine ⟨phy2log, log2phy, logcnt, ?_, hphy, hlog, fun r hr => (hmaps r hr).1⟩
    rw [rebalanceExperts_eq T.toTorch tokens.sumFirst hpolicy, hrun, ok_bind]
    simp only [hscatter, ok_bind]
    rfl
  have hglobalPolicy : if false then numGroups = some 1 ∧ nnodes = 1 else 1 = 1 ∧ 1 = 1 := ⟨rfl, rfl⟩
  -- without inactive ranks every physical expert is live
  have hall {phy2log : Mat ℤ} {log2phy : Tensor3 ℤ} {logcnt : Mat ℕ}
      (hlive : algorithm.live activeRanks numPhysical epSize = Set.Iio numPhysical)
      (hagree : ∀ r < tokens.dim1, MapsAgree tokens.dim2 (Set.Iio numPhysical) log2phy.dim2 (phy2log.cell r)
        (log2phy.cell r) (logcnt.cell r)) (r : ℕ) (hr : r < tokens.dim1) :
      MapsAgree tokens.dim2 (algorithm.live activeRanks numPhysical epSize) log2phy.dim2 (phy2log.cell r)
          (log2phy.cell r) (logcnt.cell r) ∧
        ∀ s < numPhysical, 0 ≤ phy2log.cell r s ∧ phy2log.cell r s < tokens.dim2 := by
    rw [hlive]
    exact ⟨hagree r hr, fun s hs => (hagree r hr).logical s hs⟩
  rcases algorithm with _ | _ | _ | _ | _
  · obtain ⟨phy2log, log2phy, logcnt, hrun, hphy, hlog, hagree⟩ := hdeepseek hglobalPolicy hglobal
    refine ⟨phy2log, log2phy, logcnt, ?_, hphy, hlog, hall (EplbAlgorithm.live_eq (by decide)) hagree⟩
    simp only [EplbAlgorithm.rebalanceExperts, hgpus, if_neg hlocal, hrun]
  · obtain ⟨groups, hsome, hlogical, hnodes⟩ := hfits
    have hpolicy : if true then numGroups = some groups ∧ nnodes = nnodes else groups = 1 ∧ nnodes = 1 := ⟨hsome, rfl⟩
    obtain ⟨phy2log, log2phy, logcnt, hrun, hphy, hlog, hagree⟩ := hdeepseek hpolicy (hgrouped hlogical hnodes)
    refine ⟨phy2log, log2phy, logcnt, ?_, hphy, hlog, hall (EplbAlgorithm.live_eq (by decide)) hagree⟩
    simp only [EplbAlgorithm.rebalanceExperts, hgpus, if_neg hlocal, hrun]
  · obtain ⟨phy2log, log2phy, logcnt, hrun, hphy, hlog, -, hmaps⟩ := exists_vecMaps T hlayers hglobalPolicy hglobal
    exact ⟨phy2log, log2phy, logcnt, hrun, hphy, hlog,
      hall (EplbAlgorithm.live_eq (by decide)) fun r hr => (hmaps r hr).1⟩
  · obtain ⟨groups, hsome, hlogical, hnodes⟩ := hfits
    have hpolicy : if true then numGroups = some groups ∧ nnodes = nnodes else groups = 1 ∧ nnodes = 1 := ⟨hsome, rfl⟩
    obtain ⟨phy2log, log2phy, logcnt, hrun, hphy, hlog, -, hmaps⟩ :=
      exists_vecMaps T hlayers hpolicy (hgrouped hlogical hnodes)
    exact ⟨phy2log, log2phy, logcnt, hrun, hphy, hlog,
      hall (EplbAlgorithm.live_eq (by decide)) fun r hr => (hmaps r hr).1⟩
  · obtain ⟨hranks, hfits⟩ := hfits
    have hslots : epSize * (numPhysical / epSize) = numPhysical := Nat.mul_div_cancel' hdvd
    have hrank (s : ℕ) (hs : s < numPhysical) : s / (numPhysical / epSize) < activeRanks.length := by
      rw [hranks]
      exact div_lt (by rwa [hslots])
    by_cases hinactive : activeRanks.count true < epSize
    · rw [if_pos hinactive] at hfits
      have hrows : 0 < tokens.sumFirst.rows := hlayers
      have hcols : 0 < tokens.sumFirst.cols := h.num_pos
      obtain ⟨phy2log, log2phy, logcnt, hrun, hphy, hlog, -, hmaps⟩ :=
        Elastic.exists_elasticMaps T.toTorch hrows hcols hranks hinactive hfits
      rw [hslots] at hphy hmaps
      refine ⟨phy2log, log2phy, logcnt, ?_, hphy, hlog, fun r hr => ⟨?_, fun s hs => ?_⟩⟩
      · simp only [EplbAlgorithm.rebalanceExperts, hgpus, if_neg hlocal]
        exact hrun
      · have hlive : EplbAlgorithm.elasticityAware.live activeRanks numPhysical epSize =
            {s | s < numPhysical ∧ activeRanks[s / (numPhysical / epSize)]? = some true} := by
          ext s
          exact and_congr_right fun _ => ⟨fun hs => hs rfl, fun hs _ => hs⟩
        rw [hlive]
        exact (hmaps r hr).1
      · rcases hact : activeRanks[s / (numPhysical / epSize)]? with _ | active
        · rw [List.getElem?_eq_none_iff] at hact
          exact absurd (hrank s hs) (not_lt.mpr hact)
        · cases active with
          | true => exact (hmaps r hr).1.logical s ⟨hs, hact⟩
          | false =>
            rw [(hmaps r hr).2 s hs hact]
            exact ⟨le_refl 0, Int.ofNat_lt.mpr h.num_pos⟩
    · rw [if_neg hinactive] at hfits
      obtain ⟨groups, hsome, hlogical, hnodes⟩ := hfits
      have hcount : activeRanks.count true = epSize := by
        have hle := List.count_le_length (a := true) (l := activeRanks)
        omega
      have hpolicy : if true then numGroups = some groups ∧ nnodes = nnodes else groups = 1 ∧ nnodes = 1 := ⟨hsome, rfl⟩
      obtain ⟨phy2log, log2phy, logcnt, hrun, hphy, hlog, hagree⟩ := hdeepseek hpolicy (hgrouped hlogical hnodes)
      refine ⟨phy2log, log2phy, logcnt, ?_, hphy, hlog, hall ?_ hagree⟩
      · simp only [EplbAlgorithm.rebalanceExperts, hgpus, if_neg hlocal]
        rw [Elastic.rebalanceExperts_of_active T.toTorch h.ep_pos hcount h.physical_ep, hrun]
      · ext s
        refine ⟨And.left, fun hs => ⟨hs, fun _ => ?_⟩⟩
        have hlt := hrank s hs
        rw [List.getElem?_eq_getElem hlt]
        have hmem := List.count_eq_length.mp (hcount.trans hranks.symm) _ (List.getElem_mem hlt)
        rw [← hmem]

end Algorithms

/-! ## Building the metadata -/

section Building

variable {σ : Type} (rng : Random σ) {args : ServerArgs} {config : ModelConfigForExpertLocation}

/-- The number of physical experts. -/
def numPhysicalExperts (args : ServerArgs) (config : ModelConfigForExpertLocation) : ℕ :=
  config.numLogicalExperts + args.epNumRedundantExperts

/-- The sizes of a server, and of the model that it serves. -/
def ServerArgs.FitsModel (args : ServerArgs) (config : ModelConfigForExpertLocation) : Prop :=
  0 < config.numLayers ∧
    EplbFits args.epSize args.nnodes config.numLogicalExperts (numPhysicalExperts args config)

theorem EplbFits.fits {numLogical numPhysical : ℕ}
    (h : EplbFits args.epSize args.nnodes numLogical numPhysical) : args.Fits numPhysical where
  ep_pos := h.ep_pos
  ep_le := Nat.le_of_dvd (lt_of_lt_of_le h.num_pos h.num_le) (Nat.dvd_of_mod_eq_zero h.physical_ep)
  nodes_pos := h.nodes_pos
  nodes_le := Nat.le_of_dvd h.ep_pos (Nat.dvd_of_mod_eq_zero h.ep_nodes)

theorem initCommon_eq (h : args.FitsModel config) : initCommon args config = .ok (numPhysicalExperts args config) := by
  rw [initCommon, if_neg h.2.ep_pos.ne']
  exact if_neg (not_not.mpr h.2.physical_ep)

/-- What all ranks have in common after they built their metadata from the same maps: where the experts are,
and with static dispatch one table that sends every rank to a nearest or a fairly chosen expert. -/
structure Shared (args : ServerArgs) (numLayers numLogical numPhysical : ℕ)
    (live : ℕ → Set ℕ) (phy2log : Mat ℤ) (log2phy : Tensor3 ℤ) (table : ℕ → ℕ → ℕ → ℤ)
    (build : ℕ → Except Error (Option ExpertLocationMetadata)) : Prop where
  built : ∀ rank, ∃ m, build rank = .ok (some m) ∧ m.Located numLayers numLogical numPhysical live ∧
    m.physicalToLogicalMap = phy2log ∧ m.logicalToAllPhysicalMap = log2phy ∧
    if args.epDispatchAlgorithm = some .static then
      ∃ d, m.logicalToRankDispatchPhysicalMap = some d ∧ d.Is numLayers numLogical (table (rank % args.epSize))
    else m.logicalToRankDispatchPhysicalMap = none
  near : ∀ r < numLayers, ∀ l < numLogical,
    NearestOrFair ⟨numPhysical / args.epSize, args.epSize / args.nnodes⟩ args.epSize
      (logicalToAllPhysicalRaw log2phy r l) fun rank => table rank r l

/-- `init_by_mapping`, for a mapping that uses every logical expert. A rank lists what it keeps of the
replicas of an expert. -/
theorem exists_initByMapping (h : args.FitsModel config) {phy2log : Mat ℤ}
    (hmap : CompleteMapping phy2log config.numLayers config.numLogicalExperts (numPhysicalExperts args config))
    (moeEpRank : Option ℕ) :
    ∃ log2phy table, Shared args config.numLayers config.numLogicalExperts (numPhysicalExperts args config)
        (fun _ => Set.Iio (numPhysicalExperts args config)) phy2log log2phy table
        (fun rank => initByMapping rng args (some config) rank phy2log moeEpRank) ∧
      ∀ r < config.numLayers, ∀ l < config.numLogicalExperts,
        keptRow ⟨numPhysicalExperts args config / args.epSize, args.epSize / args.nnodes⟩ moeEpRank
          (replicas (phy2log.cell r) (numPhysicalExperts args config) l) =
            .ok (logicalToAllPhysicalRaw log2phy r l) := by
  obtain ⟨log2phy, rows, hcompute, hlog, hlayers⟩ := exists_computeLogicalToAllPhysicalMap h.2.fits hmap moeEpRank
  obtain ⟨table, hbuilt, hnear⟩ := exists_initRaw rng h.2.fits ⟨hmap.rows_eq, hmap.cols_eq⟩ hlog
    fun r hr => (hlayers r hr).2
  refine ⟨_, table, ⟨fun rank => ?_, hnear⟩, fun r hr l hl => ?_⟩
  · obtain ⟨m, hm, hspec⟩ := hbuilt rank
    refine ⟨m, ?_, hspec⟩
    rw [initByMapping]
    simp only [initCommon_eq h, hcompute, hm, ok_bind]
    rfl
  · obtain ⟨hrows, hlocated⟩ := hlayers r hr
    obtain ⟨hkept, hcell⟩ := hrows l hl
    rw [hkept, raw_widen hlocated hl, hcell]
    refine congrArg Except.ok (List.ext_getElem (by simp) fun k hk _ => ?_)
    rw [List.getElem_map, List.getElem_range, List.getD_eq_getElem?_getD, List.getElem?_eq_getElem hk,
      Option.getD_some]

/-- The trivial mapping uses every logical expert. -/
theorem completeMapping_trivial (h : args.FitsModel config) :
    CompleteMapping ⟨config.numLayers, numPhysicalExperts args config, fun _ p => (p % config.numLogicalExperts : ℕ)⟩
      config.numLayers config.numLogicalExperts (numPhysicalExperts args config) where
  rows_eq := rfl
  cols_eq := rfl
  layers_pos := h.1
  num_pos := h.2.num_pos
  logical := fun _ _ s _ => ⟨Int.natCast_nonneg _, Int.ofNat_lt.mpr (Nat.mod_lt s h.2.num_pos)⟩
  onto := fun _ _ l hl => ⟨l, lt_of_lt_of_le hl h.2.num_le, congrArg Nat.cast (Nat.mod_eq_of_lt hl)⟩

/-- `init_trivial` is `init_by_mapping` of the trivial mapping. -/
theorem initTrivial_eq (h : args.FitsModel config) (rank moeEpRank : ℕ) :
    initTrivial rng args (some config) rank moeEpRank = initByMapping rng args (some config) rank
      ⟨config.numLayers, numPhysicalExperts args config, fun _ p => (p % config.numLogicalExperts : ℕ)⟩
      (some moeEpRank) := by
  have hpos := h.2.num_pos
  rw [initTrivial]
  simp only [initCommon_eq h, ok_bind]
  exact if_neg (by omega)

/-- A server with two ranks, and two redundant experts. -/
def sampleArgs : ServerArgs := ⟨2, 1, 2, some .dynamic, "auto"⟩

/-- A model with a layer of two experts. -/
def sampleConfig : ModelConfigForExpertLocation := ⟨1, 2, none⟩

theorem sample_fits : sampleArgs.FitsModel sampleConfig :=
  ⟨by decide, by decide, by decide, by decide, by decide, by decide, by decide⟩

variable {K : Type} [Zero K] [Add K] [Mul K] [LT K] [DecidableLT K] [NatCast K] [Div K]

/-- `init_by_eplb`, for any counts of the experts. Every rank lists all live replicas. -/
theorem exists_initByEplb (T : TorchVec K) (h : args.FitsModel config) {activeRanks : List Bool}
    {algorithm : EplbAlgorithm} (hcompute : EplbAlgorithm.compute args.eplbAlgorithm config.numGroups args.nnodes =
      .ok algorithm)
    (hfits : algorithm.Fits activeRanks config.numLogicalExperts (numPhysicalExperts args config) config.numGroups
      args.nnodes args.epSize) {logicalCount : Tensor3 ℕ} (hlayers : logicalCount.dim1 = config.numLayers)
    (hexperts : logicalCount.dim2 = config.numLogicalExperts) :
    ∃ phy2log log2phy table, Shared args config.numLayers config.numLogicalExperts (numPhysicalExperts args config)
        (fun _ => algorithm.live activeRanks (numPhysicalExperts args config) args.epSize) phy2log log2phy table
        (fun rank => initByEplb rng T args (some config) rank activeRanks logicalCount) ∧
      ∀ r < config.numLayers, ∀ s ∈ algorithm.live activeRanks (numPhysicalExperts args config) args.epSize,
        ∀ l < config.numLogicalExperts, phy2log.cell r s = l → (s : ℤ) ∈ logicalToAllPhysicalRaw log2phy r l := by
  let tokens : Tensor3 K := ⟨logicalCount.dim0, logicalCount.dim1, logicalCount.dim2, fun s l e =>
    (logicalCount.cell s l e : K)⟩
  have hdim1 : tokens.dim1 = config.numLayers := hlayers
  have hdim2 : tokens.dim2 = config.numLogicalExperts := hexperts
  obtain ⟨hpos, hsizes⟩ := h
  have hsizes' := hsizes
  have hcommon := initCommon_eq ⟨hpos, hsizes⟩
  rw [← hdim2] at hsizes hfits
  obtain ⟨phy2log, log2phy, logcnt, hrun, hphy, hlog, hmaps⟩ :=
    algorithm.exists_placement T (by rwa [hdim1]) hsizes hfits
  rw [hdim1] at hphy hlog hmaps
  rw [hdim2] at hlog hmaps
  have hlocated (r : ℕ) (hr : r < config.numLayers) := (hmaps r hr).1.layerLocated (fun s hs => hs.1) (hmaps r hr).2
  obtain ⟨table, hbuilt, hnear⟩ := exists_initRaw rng hsizes'.fits hphy hlog hlocated
  refine ⟨phy2log, _, table, ⟨fun rank => ?_, hnear⟩, fun r hr s hs l hl hsl => ?_⟩
  · obtain ⟨m, hm, hspec⟩ := hbuilt rank
    refine ⟨m, ?_, hspec⟩
    rw [initByEplb]
    simp only [hcommon, hcompute, ok_bind]
    rw [show algorithm.rebalanceExperts T ⟨logicalCount.dim0, logicalCount.dim1, logicalCount.dim2, fun s l e =>
      (logicalCount.cell s l e : K)⟩ _ _ _ _ _ = _ from hrun, ok_bind, hm]
    rfl
  · obtain ⟨k, ⟨hk, hval⟩, -⟩ := (hmaps r hr).1.listed s hs l hl hsl
    rw [raw_widen (hlocated r hr) hl]
    exact List.mem_map.mpr ⟨k, List.mem_range.mpr hk, hval⟩

end Building

/-! ## Updating the metadata -/

namespace ExpertLocationMetadata

/-- One field of `update`: the new value, or an exception that leaves the field and the later ones. -/
def assign {α : Type} (value : ExpertLocationMetadata → Except Error α)
    (set : α → ExpertLocationMetadata → ExpertLocationMetadata) : PyM ExpertLocationMetadata Unit := do
  let v ← PyM.ofExcept (value (← get))
  modify (set v)

/-- The optional field: either both have it or none. -/
def whereDispatch (d : Option (Mat ℤ)) (n : ℕ) (mask : ℕ → Bool) (other : Option (Mat ℤ)) :
    Except Error (Option (Mat ℤ)) :=
  match d, other with
  | none, none => .ok none
  | some d, some other => do return some (← d.whereRows n mask other)
  | _, _ => .error .assertionError

/-- `update`, within one world of ranks, so of one `ep_size`. -/
def update (other : ExpertLocationMetadata) (updateLayerIds : List ℕ) : PyM ExpertLocationMetadata Unit := do
  let n := (← get).physicalToLogicalMap.rows
  let mask (layer : ℕ) : Bool := decide (layer ∈ updateLayerIds)
  assign (fun m => m.physicalToLogicalMap.whereRows n mask other.physicalToLogicalMap)
    fun v m => { m with physicalToLogicalMap := v }
  assign (fun m => m.physicalToLogicalMapCpu.whereRows n mask other.physicalToLogicalMapCpu)
    fun v m => { m with physicalToLogicalMapCpu := v }
  assign (fun m => m.logicalToAllPhysicalMap.whereFirst n mask other.logicalToAllPhysicalMap)
    fun v m => { m with logicalToAllPhysicalMap := v }
  assign (fun m => m.logicalToAllPhysicalMapCpu.whereFirst n mask other.logicalToAllPhysicalMapCpu)
    fun v m => { m with logicalToAllPhysicalMapCpu := v }
  assign (fun m => m.logicalToAllPhysicalMapNumValid.whereRows n mask other.logicalToAllPhysicalMapNumValid)
    fun v m => { m with logicalToAllPhysicalMapNumValid := v }
  assign (fun m => whereDispatch m.logicalToRankDispatchPhysicalMap n mask other.logicalToRankDispatchPhysicalMap)
    fun v m => { m with logicalToRankDispatchPhysicalMap := v }

/-- The layers of `other` where the mask holds. -/
def merge (m : ExpertLocationMetadata) (mask : ℕ → Bool) (other : ExpertLocationMetadata) :
    ExpertLocationMetadata where
  physicalToLogicalMap := m.physicalToLogicalMap.mergeRows mask other.physicalToLogicalMap
  physicalToLogicalMapCpu := m.physicalToLogicalMapCpu.mergeRows mask other.physicalToLogicalMapCpu
  logicalToAllPhysicalMap := m.logicalToAllPhysicalMap.mergeFirst mask other.logicalToAllPhysicalMap
  logicalToAllPhysicalMapCpu := m.logicalToAllPhysicalMapCpu.mergeFirst mask other.logicalToAllPhysicalMapCpu
  logicalToAllPhysicalMapNumValid :=
    m.logicalToAllPhysicalMapNumValid.mergeRows mask other.logicalToAllPhysicalMapNumValid
  logicalToRankDispatchPhysicalMap := do
    let d ← m.logicalToRankDispatchPhysicalMap
    let other ← other.logicalToRankDispatchPhysicalMap
    return d.mergeRows mask other

variable {m other : ExpertLocationMetadata} {numLayers numLogical numPhysical : ℕ} {live live' : ℕ → Set ℕ}

/-- If both locate the experts of one model, the update returns, and merges the layers. -/
theorem Located.update_eq (h : m.Located numLayers numLogical numPhysical live)
    (hother : other.Located numLayers numLogical numPhysical live')
    (hdispatch : other.logicalToRankDispatchPhysicalMap.isSome = m.logicalToRankDispatchPhysicalMap.isSome)
    (updateLayerIds : List ℕ) :
    (update other updateLayerIds).run m = .ok ⟨⟩ (m.merge (fun layer => decide (layer ∈ updateLayerIds)) other) := by
  have hwhere : whereDispatch m.logicalToRankDispatchPhysicalMap numLayers (fun layer => decide (layer ∈ updateLayerIds))
      other.logicalToRankDispatchPhysicalMap = .ok (m.merge (fun layer => decide (layer ∈ updateLayerIds))
        other).logicalToRankDispatchPhysicalMap := by
    rw [merge]
    rcases hd : m.logicalToRankDispatchPhysicalMap with _ | d
    · rcases hd' : other.logicalToRankDispatchPhysicalMap with _ | d'
      · rfl
      · rw [hd, hd'] at hdispatch
        cases hdispatch
    · rcases hd' : other.logicalToRankDispatchPhysicalMap with _ | d'
      · rw [hd, hd'] at hdispatch
        cases hdispatch
      · show (do return some (← d.whereRows _ _ d') : Except Error _) = _
        rw [((h.dispatch d hd).1.whereRows (hother.dispatch d' hd').1 _).1]
        rfl
  have hassign {α : Type} {value : ExpertLocationMetadata → Except Error α} {v : α}
      {set : α → ExpertLocationMetadata → ExpertLocationMetadata} {s : ExpertLocationMetadata}
      (hv : value s = .ok v) : (assign value set).run s = .ok ⟨⟩ (set v s) := by
    rw [assign]
    refine (PyM.run_bind_of_ok (PyM.run_get s)).trans ?_
    rw [hv]
    rfl
  rw [update]
  refine (PyM.run_bind_of_ok (PyM.run_get m)).trans ?_
  rw [h.phy.rows_eq]
  refine (PyM.run_bind_of_ok (hassign (h.phy.whereRows hother.phy _).1)).trans ?_
  refine (PyM.run_bind_of_ok (hassign (h.phy_cpu.whereRows hother.phy_cpu _).1)).trans ?_
  refine (PyM.run_bind_of_ok (hassign (h.log.whereFirst hother.log _).1)).trans ?_
  refine (PyM.run_bind_of_ok (hassign (h.log_cpu.whereFirst hother.log_cpu _).1)).trans ?_
  refine (PyM.run_bind_of_ok (hassign (h.valid.whereRows hother.valid _).1)).trans ?_
  exact hassign hwhere

/-- Every layer is located by the metadata that it comes from. -/
theorem Located.merge (h : m.Located numLayers numLogical numPhysical live)
    (hother : other.Located numLayers numLogical numPhysical live') (mask : ℕ → Bool) :
    (m.merge mask other).Located numLayers numLogical numPhysical
      fun layer => if mask layer then live' layer else live layer := by
  refine ⟨(h.phy.whereRows hother.phy mask).2, (h.phy_cpu.whereRows hother.phy_cpu mask).2,
    (h.log.whereFirst hother.log mask).2, (h.log_cpu.whereFirst hother.log_cpu mask).2,
    (h.valid.whereRows hother.valid mask).2, fun r hr => ?_, fun d hd => ?_⟩
  · have hcases : ∀ b : Bool, LayerLocated numLogical numPhysical (if b then live' r else live r) numPhysical
        (if b then other.physicalToLogicalMap.cell r else m.physicalToLogicalMap.cell r)
        (if b then other.logicalToAllPhysicalMap.cell r else m.logicalToAllPhysicalMap.cell r)
        (if b then other.logicalToAllPhysicalMapNumValid.cell r
          else m.logicalToAllPhysicalMapNumValid.cell r) := by
      rintro (_ | _)
      · exact h.layer r hr
      · exact hother.layer r hr
    exact hcases (mask r)
  · obtain ⟨d₁, hd₁, hd⟩ := Option.bind_eq_some_iff.mp hd
    obtain ⟨d₂, hd₂, hd⟩ := Option.bind_eq_some_iff.mp hd
    obtain ⟨hIs₁, hcell₁⟩ := h.dispatch d₁ hd₁
    obtain ⟨hIs₂, hcell₂⟩ := hother.dispatch d₂ hd₂
    rw [← Option.some.inj hd]
    refine ⟨(hIs₁.whereRows hIs₂ mask).2, fun r hr l hl => ?_⟩
    have hcases : ∀ b : Bool, ∃ k < (if b then other.logicalToAllPhysicalMapNumValid.cell r
          else m.logicalToAllPhysicalMapNumValid.cell r) l,
        (if b then d₂.cell r else d₁.cell r) l = (if b then other.logicalToAllPhysicalMap.cell r
          else m.logicalToAllPhysicalMap.cell r) l k := by
      rintro (_ | _)
      · exact hcell₁ r hr l hl
      · exact hcell₂ r hr l hl
    exact hcases (mask r)

end ExpertLocationMetadata

end MoeSpecialization.Eplb
