import MoeSpecialization.Eplb.System

/-!
# Loading the weights

Reference: `weight_loader`, `_weight_loader_physical` and `_map_global_expert_id_to_local_expert_id` in
`sglang/srt/layers/moe/fused_moe_triton/layer.py`, and `logical_to_all_physical` in
`sglang/srt/eplb/expert_location.py`.

The checkpoint has the weights of the logical experts. A rank writes those of an expert to the slots of its
own that its metadata lists for the expert. Metadata of `init_by_eplb` lists all of them (`rebalanced_loaded`).
Metadata of a mapping lists only the nearest physical expert, which is the first of the rank's own, so that a
second slot of the same expert on the same rank stays empty (`loaded_iff_first`). If the mapping has no such slots,
the ranks start the system with loaded weights (`exists_started_loaded`).
-/

namespace MoeSpecialization.Eplb

open Py

section Definitions

/-- `FusedMoE`, as far as the loading of weights reads it. -/
structure FusedMoE where
  layerId : ℕ
  numExperts : ℕ
  numFusedSharedExperts : ℕ
  numLocalExperts : ℕ
  moeEpRank : ℕ

/-- `logical_to_all_physical`. -/
def ExpertLocationMetadata.logicalToAllPhysical (m : ExpertLocationMetadata) (layerId logicalExpertId : ℕ)
    (requireGlobalExperts : Bool) : Except Error (List ℤ) :=
  let map := m.logicalToAllPhysicalMapCpu
  if map.dim0 ≤ layerId then .error .indexError
  else if requireGlobalExperts then
    if m.logicalToAllPhysicalMap.dim1 = 0 then .error (.valueError "range() arg 3 must not be zero")
    else .ok (((List.range map.dim2).filter fun p => logicalExpertId ≤ p ∧
      (p - logicalExpertId) % m.logicalToAllPhysicalMap.dim1 = 0).map fun p : ℕ => (p : ℤ))
  else if map.dim1 ≤ logicalExpertId then .error .indexError
  else .ok (logicalToAllPhysicalRaw map layerId logicalExpertId)

namespace FusedMoE

/-- `_map_global_expert_id_to_local_expert_id`. -/
def mapGlobalExpertIdToLocalExpertId (f : FusedMoE) (expertId : ℤ) : ℤ :=
  let numGlobalRoutedExperts : ℤ := f.numExperts - f.numFusedSharedExperts
  let numLocalRoutedExperts : ℤ := f.numLocalExperts - f.numFusedSharedExperts
  let startIdx := f.moeEpRank * numLocalRoutedExperts
  let endIdx := (f.moeEpRank + 1) * numLocalRoutedExperts
  if startIdx ≤ expertId ∧ expertId < endIdx then expertId - startIdx
  else if 0 < f.numFusedSharedExperts ∧ numGlobalRoutedExperts ≤ expertId then
    expertId - numGlobalRoutedExperts + numLocalRoutedExperts
  else -1

/-- `_weight_loader_physical`: the slot that is written, if there is one. -/
def weightLoaderPhysical (f : FusedMoE) (requireGlobalExperts : Bool) (expertId : ℤ) : Option ℤ :=
  if requireGlobalExperts then some expertId
  else
    let localId := f.mapGlobalExpertIdToLocalExpertId expertId
    if localId < 0 ∨ f.numLocalExperts ≤ localId then none else some localId

/-- `weight_loader`: the slots that the weights of an expert are written to. -/
def weightLoader (f : FusedMoE) (metadata : Option ExpertLocationMetadata) (requireGlobalExperts : Bool)
    (expertId : ℕ) : Except Error (List ℤ) :=
  match metadata with
  | none =>
    if requireGlobalExperts then .ok [(expertId : ℤ)]
    else
      let localId := f.mapGlobalExpertIdToLocalExpertId expertId
      .ok (if localId = -1 then [] else [localId])
  | some m => do
    let physicalExpertIds ←
      if (f.numExperts : ℤ) - f.numFusedSharedExperts ≤ expertId then pure [(expertId : ℤ)]
      else m.logicalToAllPhysical f.layerId expertId requireGlobalExperts
    return physicalExpertIds.filterMap (f.weightLoaderPhysical requireGlobalExperts)

variable {V : Type}

/-- A call of the loader for a tensor and an expert. An empty slot is `none`. -/
def load (f : FusedMoE) (m : ExpertLocationMetadata) (checkpoint : ℕ → ℕ → V) (param : ℕ → ℕ → Option V)
    (call : ℕ × ℕ) : Except Error (ℕ → ℕ → Option V) := do
  let slots ← f.weightLoader (some m) false call.2
  return fun i y => if i = call.1 ∧ (y : ℤ) ∈ slots then some (checkpoint call.1 call.2) else param i y

/-- The loading of a checkpoint. -/
def loadAll (f : FusedMoE) (m : ExpertLocationMetadata) (checkpoint : ℕ → ℕ → V) (calls : List (ℕ × ℕ)) :
    Except Error (ℕ → ℕ → Option V) :=
  calls.foldlM (f.load m checkpoint) fun _ _ => none

/-- The layer of a rank, with its part of the physical experts. -/
structure Fits (f : FusedMoE) (layer rank numPhysical numLocal : ℕ) : Prop where
  layer_eq : f.layerId = layer
  experts_eq : f.numExperts = numPhysical + f.numFusedSharedExperts
  local_eq : f.numLocalExperts = numLocal + f.numFusedSharedExperts
  rank_eq : f.moeEpRank = rank

end FusedMoE

end Definitions

/-! ## The slots that are written -/

section Slots

variable {f : FusedMoE} {layer rank numPhysical numLocal numLayers numLogical : ℕ} {live : ℕ → Set ℕ}
  {m : ExpertLocationMetadata}

/-- A physical expert is written to its own slot of the rank. -/
theorem FusedMoE.Fits.weightLoaderPhysical_eq (hf : f.Fits layer rank numPhysical numLocal) {p y : ℕ}
    (hp : p < numPhysical) (hy : y < numLocal) :
    f.weightLoaderPhysical false (p : ℤ) = some (y : ℤ) ↔ p = rank * numLocal + y := by
  have hlocal : (f.numLocalExperts : ℤ) - f.numFusedSharedExperts = numLocal := by
    rw [hf.local_eq]
    omega
  have hglobal : (f.numExperts : ℤ) - f.numFusedSharedExperts = numPhysical := by
    rw [hf.experts_eq]
    omega
  have hbound := hf.local_eq
  rw [FusedMoE.weightLoaderPhysical, if_neg Bool.false_ne_true]
  simp only [FusedMoE.mapGlobalExpertIdToLocalExpertId, hlocal, hglobal, hf.rank_eq, add_one_mul]
  rw [← Int.natCast_mul]
  generalize rank * numLocal = start
  by_cases hown : (start : ℤ) ≤ p ∧ (p : ℤ) < start + numLocal
  · rw [if_pos hown, if_neg (by omega), Option.some.injEq]
    omega
  · have hshared : ¬(0 < f.numFusedSharedExperts ∧ (numPhysical : ℤ) ≤ p) := by omega
    rw [if_neg hown, if_neg hshared, if_pos (by omega)]
    simp only [reduceCtorEq, false_iff]
    omega

/-- The loader of an expert writes the slots that the metadata lists for it. -/
theorem FusedMoE.Fits.exists_weightLoader (hf : f.Fits layer rank numPhysical numLocal)
    (hm : m.Located numLayers numLogical numPhysical live) (hlayer : layer < numLayers) {e : ℕ}
    (he : e < numLogical) (hle : numLogical ≤ numPhysical) :
    ∃ slots, f.weightLoader (some m) false e = .ok slots ∧ ∀ y < numLocal,
      ((y : ℤ) ∈ slots ↔ ((rank * numLocal + y : ℕ) : ℤ) ∈
        logicalToAllPhysicalRaw m.logicalToAllPhysicalMap layer e) := by
  have hcpu : logicalToAllPhysicalRaw m.logicalToAllPhysicalMapCpu layer e =
      logicalToAllPhysicalRaw m.logicalToAllPhysicalMap layer e := by
    rw [logicalToAllPhysicalRaw, logicalToAllPhysicalRaw, hm.log_cpu.dim2_eq, hm.log.dim2_eq]
    refine congrArg (List.filter _) (List.map_congr_left fun k hk => ?_)
    exact hm.log_cpu.cell_eq layer hlayer e he k (List.mem_range.mp hk)
  have hlisted : m.logicalToAllPhysical f.layerId e false =
      .ok (logicalToAllPhysicalRaw m.logicalToAllPhysicalMap layer e) := by
    simp only [ExpertLocationMetadata.logicalToAllPhysical, hf.layer_eq, hm.log_cpu.dim0_eq, hm.log_cpu.dim1_eq,
      if_neg (not_le.mpr hlayer), if_neg (not_le.mpr he), if_neg Bool.false_ne_true, hcpu]
  refine ⟨(logicalToAllPhysicalRaw m.logicalToAllPhysicalMap layer e).filterMap (f.weightLoaderPhysical false),
    ?_, fun y hy => ?_⟩
  · have hrouted : ¬(f.numExperts : ℤ) - f.numFusedSharedExperts ≤ e := by
      rw [hf.experts_eq]
      omega
    rw [FusedMoE.weightLoader, if_neg hrouted, hlisted]
    rfl
  · have hrow : logicalToAllPhysicalRaw m.logicalToAllPhysicalMap layer e =
        (List.range (m.logicalToAllPhysicalMapNumValid.cell layer e)).map
          (m.logicalToAllPhysicalMap.cell layer e) := by
      rw [logicalToAllPhysicalRaw, hm.log.dim2_eq]
      exact (hm.layer layer hlayer).filter_row he
    have hids (p : ℤ) (hp : p ∈ logicalToAllPhysicalRaw m.logicalToAllPhysicalMap layer e) :
        ∃ s < numPhysical, p = (s : ℤ) := by
      rw [hrow] at hp
      obtain ⟨k, hk, rfl⟩ := List.mem_map.mp hp
      obtain ⟨s, hs, hval, -⟩ := (hm.layer layer hlayer).slot e he k (List.mem_range.mp hk)
      exact ⟨s, (hm.layer layer hlayer).live_lt s hs, hval⟩
    rw [List.mem_filterMap]
    constructor
    · rintro ⟨p, hp, hwrite⟩
      obtain ⟨s, hs, rfl⟩ := hids p hp
      rwa [← (hf.weightLoaderPhysical_eq hs hy).mp hwrite]
    · intro hp
      obtain ⟨s, hs, hval⟩ := hids _ hp
      rw [← Int.natCast_inj.mp hval] at hs
      exact ⟨_, hp, (hf.weightLoaderPhysical_eq hs hy).mpr rfl⟩

/-- What is listed for an expert holds it. -/
theorem ExpertLocationMetadata.Located.of_listed (hm : m.Located numLayers numLogical numPhysical live)
    (hlayer : layer < numLayers) {e p : ℕ} (he : e < numLogical)
    (hp : (p : ℤ) ∈ logicalToAllPhysicalRaw m.logicalToAllPhysicalMap layer e) :
    m.physicalToLogicalMap.cell layer p = e := by
  rw [logicalToAllPhysicalRaw, hm.log.dim2_eq, (hm.layer layer hlayer).filter_row he] at hp
  obtain ⟨k, hk, hval⟩ := List.mem_map.mp hp
  obtain ⟨s, -, hs, hse⟩ := (hm.layer layer hlayer).slot e he k (List.mem_range.mp hk)
  rw [hval, Int.natCast_inj] at hs
  rwa [hs]

variable {V : Type} (checkpoint : ℕ → ℕ → V)

/-- The run lemma of the loader: a slot has the weights of its expert if it is listed and they were loaded, and is
empty otherwise. -/
theorem FusedMoE.Fits.exists_loadAll (hf : f.Fits layer rank numPhysical numLocal)
    (hm : m.Located numLayers numLogical numPhysical live) (hlayer : layer < numLayers)
    (hle : numLogical ≤ numPhysical) {calls : List (ℕ × ℕ)} (hcalls : ∀ c ∈ calls, c.2 < numLogical) :
    ∃ param, f.loadAll m checkpoint calls = .ok param ∧ ∀ i, ∀ y < numLocal, ∀ e : ℕ,
      m.physicalToLogicalMap.cell layer (rank * numLocal + y) = e →
      param i y = if (i, e) ∈ calls ∧ ((rank * numLocal + y : ℕ) : ℤ) ∈
        logicalToAllPhysicalRaw m.logicalToAllPhysicalMap layer e then some (checkpoint i e) else none := by
  induction calls using List.reverseRecOn with
  | nil =>
    refine ⟨fun _ _ => none, rfl, fun i y _ e _ => ?_⟩
    rw [if_neg fun h => absurd h.1 List.not_mem_nil]
  | append_singleton calls c ih =>
    obtain ⟨param, hparam, hspec⟩ := ih fun d hd => hcalls d (List.mem_append_left _ hd)
    have hc : c.2 < numLogical := hcalls c (List.mem_append_right _ (List.mem_singleton.mpr rfl))
    obtain ⟨slots, hslots, hmem⟩ := hf.exists_weightLoader hm hlayer hc hle
    refine ⟨fun i y => if i = c.1 ∧ (y : ℤ) ∈ slots then some (checkpoint c.1 c.2) else param i y, ?_,
      fun i y hy e he => ?_⟩
    · rw [FusedMoE.loadAll] at hparam ⊢
      rw [List.foldlM_append, hparam, ok_bind, List.foldlM_cons, FusedMoE.load, hslots]
      rfl
    · simp only [hmem y hy, hspec i y hy e he, List.mem_append, List.mem_singleton]
      by_cases hwrite : i = c.1 ∧ ((rank * numLocal + y : ℕ) : ℤ) ∈
          logicalToAllPhysicalRaw m.logicalToAllPhysicalMap layer c.2
      · -- the slot is listed for one expert only
        obtain ⟨rfl, hlisted⟩ := hwrite
        have hce : c.2 = e := Int.natCast_inj.mp ((hm.of_listed hlayer hc hlisted).symm.trans he)
        rw [hce] at hlisted
        rw [hce, if_pos ⟨rfl, hlisted⟩, if_pos ⟨.inr (Prod.ext rfl hce.symm), hlisted⟩]
      · rw [if_neg hwrite]
        refine if_congr (and_congr_left fun hlisted => ?_) rfl rfl
        refine ⟨.inl, fun h => h.resolve_right fun heq => hwrite ?_⟩
        rw [← heq]
        exact ⟨rfl, hlisted⟩

end Slots

/-! ## What is loaded at the start -/

section Start

variable {σ : Type} (rng : Random σ) {args : ServerArgs} {config : ModelConfigForExpertLocation}

theorem pairwise_replicas (phy2log : ℕ → ℤ) (n l : ℕ) : (replicas phy2log n l).Pairwise (· < ·) :=
  (List.pairwise_lt_range.filter _).map _ fun _ _ => Int.ofNat_lt.mpr

/-- A rank keeps the first of its own slots of an expert. -/
theorem mem_keptRow_iff {t : Topology} {rank y n e : ℕ} {phy2log : ℕ → ℤ} {row : List ℤ}
    (hlocal : y < t.numLocalGpuPhysicalExperts) (hy : rank * t.numLocalGpuPhysicalExperts + y < n)
    (he : phy2log (rank * t.numLocalGpuPhysicalExperts + y) = e)
    (hrow : keptRow t (some rank) (replicas phy2log n e) = .ok row) :
    ((rank * t.numLocalGpuPhysicalExperts + y : ℕ) : ℤ) ∈ row ↔
      ∀ y' < y, phy2log (rank * t.numLocalGpuPhysicalExperts + y') ≠ e := by
  have hown (y' : ℕ) (hy' : y' < t.numLocalGpuPhysicalExperts) :
      t.gpuId ((rank * t.numLocalGpuPhysicalExperts + y' : ℕ) : ℤ) = rank := by
    rw [Topology.gpuId, ← Int.natCast_ediv, Nat.mul_comm, Nat.mul_add_div (by omega), Nat.div_eq_of_lt hy',
      Nat.add_zero]
  have hmem (y' : ℕ) (hle : y' ≤ y) : ((rank * t.numLocalGpuPhysicalExperts + y' : ℕ) : ℤ) ∈
      (replicas phy2log n e).filter (fun q => t.gpuId q = rank) ↔
        phy2log (rank * t.numLocalGpuPhysicalExperts + y') = e := by
    rw [List.mem_filter, mem_replicas]
    constructor
    · rintro ⟨⟨s, -, hs, hse⟩, -⟩
      rwa [Int.natCast_inj.mp hs]
    · intro hy'e
      exact ⟨⟨_, by omega, rfl, hy'e⟩, decide_eq_true (hown y' (by omega))⟩
  rcases hfilter : (replicas phy2log n e).filter (fun q => t.gpuId q = rank) with _ | ⟨q, rest⟩
  · have hslot := (hmem y (le_refl y)).mpr he
    rw [hfilter] at hslot
    cases hslot
  have hsorted : ((replicas phy2log n e).filter fun q => t.gpuId q = rank).Pairwise (· < ·) :=
    (pairwise_replicas phy2log n e).filter _
  rw [hfilter, List.pairwise_cons] at hsorted
  have hq : q ∈ (replicas phy2log n e).filter fun q => t.gpuId q = rank := by
    rw [hfilter]
    exact List.mem_cons_self
  -- the row is the first of the slots
  have hnearest : keptRow t (some rank) (replicas phy2log n e) = .ok [q] := by
    have hne : q ≠ -1 := fun h => neg_one_notMem_replicas e (h ▸ (List.mem_filter.mp hq).1)
    rw [keptRow, replaceByNearest, findNearestExpert_of_gpu (by omega) hfilter, ok_bind, if_pos hne]
    rfl
  rw [hnearest] at hrow
  rw [← Except.ok.inj hrow, List.mem_singleton]
  constructor
  · intro hfirst y' hy' hy'e
    have hslot := (hmem y' hy'.le).mpr hy'e
    rw [hfilter, ← hfirst, List.mem_cons] at hslot
    rcases hslot with heq | hrest
    · omega
    · have hlt := hsorted.1 _ hrest
      omega
  · intro hfirst
    have hslot := (hmem y (le_refl y)).mpr he
    rw [hfilter, List.mem_cons] at hslot
    refine hslot.resolve_right fun hrest => ?_
    -- a slot before the last one is a slot of the rank
    have hlt := hsorted.1 _ hrest
    obtain ⟨hqmem, hqgpu⟩ := List.mem_filter.mp hq
    obtain ⟨s, -, rfl, hse⟩ := mem_replicas.mp hqmem
    have hqgpu := of_decide_eq_true hqgpu
    rw [Topology.gpuId, ← Int.natCast_ediv, Int.natCast_inj] at hqgpu
    have hs := Nat.div_add_mod' s t.numLocalGpuPhysicalExperts
    rw [hqgpu] at hs
    refine hfirst (s % t.numLocalGpuPhysicalExperts) ?_ (by rwa [hs])
    have hlt := Int.ofNat_lt.mp hlt
    omega

variable {f : FusedMoE} {layer rank : ℕ} {V : Type} (checkpoint : ℕ → ℕ → V) {calls : List (ℕ × ℕ)}

/-- What a rank loads with the metadata of a mapping. -/
theorem exists_loadAll_mapping (h : args.FitsModel config) {phy2log : Mat ℤ} (hmap : CompleteMapping phy2log
      config.numLayers config.numLogicalExperts (numPhysicalExperts args config)) (hrank : rank < args.epSize)
    {m : ExpertLocationMetadata}
    (hm : initByMapping rng args (some config) rank phy2log (some rank) = .ok (some m))
    (hlayer : layer < config.numLayers)
    (hf : f.Fits layer rank (numPhysicalExperts args config) (numPhysicalExperts args config / args.epSize))
    (hcalls : ∀ c ∈ calls, c.2 < config.numLogicalExperts) :
    ∃ param, f.loadAll m checkpoint calls = .ok param ∧
      ∀ i, ∀ y < numPhysicalExperts args config / args.epSize, ∀ e : ℕ, (i, e) ∈ calls →
        phy2log.cell layer (rank * (numPhysicalExperts args config / args.epSize) + y) = e →
        param i y = if ∀ y' < y, phy2log.cell layer (rank * (numPhysicalExperts args config / args.epSize) + y') ≠ e
          then some (checkpoint i e) else none := by
  obtain ⟨log2phy, table, hshared, hkept⟩ := exists_initByMapping rng h hmap (some rank)
  obtain ⟨m', hm', hlocated, hphy, hlog, -⟩ := hshared.built rank
  obtain rfl : m = m' := Option.some.inj (Except.ok.inj (hm.symm.trans hm'))
  obtain ⟨param, hparam, hspec⟩ := hf.exists_loadAll checkpoint hlocated hlayer h.2.num_le hcalls
  refine ⟨param, hparam, fun i y hy e hcall he => ?_⟩
  have hlisted := mem_keptRow_iff hy (slot_lt h hrank hy) he (hkept layer hlayer e (hcalls _ hcall))
  rw [hspec i y hy e (by rwa [hphy]), hlog]
  exact if_congr ((and_iff_right hcall).trans hlisted) rfl rfl

/-- **The first slot is loaded.** With the metadata that a rank builds of a mapping, the loading of a checkpoint, in
any order, fills the first slot that the rank has of an expert, and leaves its other slots of the expert empty. -/
theorem loaded_iff_first (h : args.FitsModel config) {phy2log : Mat ℤ} (hmap : CompleteMapping phy2log
      config.numLayers config.numLogicalExperts (numPhysicalExperts args config)) (hrank : rank < args.epSize)
    (hlayer : layer < config.numLayers)
    (hf : f.Fits layer rank (numPhysicalExperts args config) (numPhysicalExperts args config / args.epSize))
    (hcalls : ∀ c ∈ calls, c.2 < config.numLogicalExperts) :
    ∃ m param, initByMapping rng args (some config) rank phy2log (some rank) = .ok (some m) ∧
      f.loadAll m checkpoint calls = .ok param ∧
      ∀ i, ∀ y < numPhysicalExperts args config / args.epSize, ∀ e : ℕ, (i, e) ∈ calls →
        phy2log.cell layer (rank * (numPhysicalExperts args config / args.epSize) + y) = e →
        param i y = if ∀ y' < y, phy2log.cell layer (rank * (numPhysicalExperts args config / args.epSize) + y') ≠ e
          then some (checkpoint i e) else none := by
  obtain ⟨metadata, hbuilt, -⟩ := exists_started rng h hmap
  obtain ⟨param, hparam, hspec⟩ :=
    exists_loadAll_mapping rng checkpoint h hmap hrank (hbuilt rank) hlayer hf hcalls
  exact ⟨metadata rank, param, hbuilt rank, hparam, hspec⟩

section Rebalanced

variable {K : Type} [Zero K] [Add K] [Mul K] [LT K] [DecidableLT K] [NatCast K] [Div K] (T : TorchVec K)
  {activeRanks : List Bool} {algorithm : EplbAlgorithm} {logicalCount : Tensor3 ℕ}

/-- With the metadata of `init_by_eplb` all slots of the live ranks are loaded. -/
theorem rebalanced_loaded (h : args.FitsModel config)
    (hcompute : EplbAlgorithm.compute args.eplbAlgorithm config.numGroups args.nnodes = .ok algorithm)
    (hfits : algorithm.Fits activeRanks config.numLogicalExperts (numPhysicalExperts args config) config.numGroups
      args.nnodes args.epSize)
    (hcount : logicalCount.dim1 = config.numLayers ∧ logicalCount.dim2 = config.numLogicalExperts)
    (hlayer : layer < config.numLayers)
    (hf : f.Fits layer rank (numPhysicalExperts args config) (numPhysicalExperts args config / args.epSize))
    (hcalls : ∀ c ∈ calls, c.2 < config.numLogicalExperts) :
    ∃ m param, initByEplb rng T args (some config) rank activeRanks logicalCount = .ok (some m) ∧
      f.loadAll m checkpoint calls = .ok param ∧
      ∀ i, ∀ y < numPhysicalExperts args config / args.epSize, ∀ e : ℕ, (i, e) ∈ calls →
        rank * (numPhysicalExperts args config / args.epSize) + y ∈
          algorithm.live activeRanks (numPhysicalExperts args config) args.epSize →
        m.physicalToLogicalMap.cell layer (rank * (numPhysicalExperts args config / args.epSize) + y) = e →
        param i y = some (checkpoint i e) := by
  obtain ⟨phy2log, log2phy, table, hshared, hlisted⟩ := exists_initByEplb rng T h hcompute hfits hcount.1 hcount.2
  obtain ⟨m, hm, hlocated, hphy, hlog, -⟩ := hshared.built rank
  obtain ⟨param, hparam, hspec⟩ := hf.exists_loadAll checkpoint hlocated hlayer h.2.num_le hcalls
  refine ⟨m, param, hm, hparam, fun i y hy e hcall hlive he => ?_⟩
  rw [hspec i y hy e he, hlog]
  rw [hphy] at he
  exact if_pos ⟨hcall, hlisted layer hlayer _ hlive e (hcalls _ hcall) he⟩

/-- **The system starts loaded.** If the slots of a rank are different experts in every layer, the loading of a
checkpoint leaves the ranks in a state from which the system can run. -/
theorem exists_started_loaded (a : ManagerArgs K) (h : args.FitsModel config) {phy2log : Mat ℤ}
    (hmap : CompleteMapping phy2log config.numLayers config.numLogicalExperts (numPhysicalExperts args config))
    {layerIds : List ℕ} (hlayers : LayersFit config layerIds)
    (hdistinct : ∀ rank < args.epSize, ∀ l ∈ layerIds, ∀ y < numPhysicalExperts args config / args.epSize,
      ∀ y' < y, phy2log.cell l (rank * (numPhysicalExperts args config / args.epSize) + y') ≠
        phy2log.cell l (rank * (numPhysicalExperts args config / args.epSize) + y))
    {moe : ℕ → ℕ → FusedMoE} (hmoe : ∀ l ∈ layerIds, ∀ rank < args.epSize, (moe l rank).Fits l rank
      (numPhysicalExperts args config) (numPhysicalExperts args config / args.epSize))
    {numTensors : ℕ} (hcalls : ∀ c ∈ calls, c.2 < config.numLogicalExperts)
    (hall : ∀ i < numTensors, ∀ e < config.numLogicalExperts, (i, e) ∈ calls)
    (expertWeights : ℕ → ℕ → ℤ → V) (tempBuffers : ℕ → ℕ → V) :
    ∃ (metadata : ℕ → ExpertLocationMetadata) (s : System V args.epSize),
      (∀ rank, initByMapping rng args (some config) rank phy2log (some rank) = .ok (some (metadata rank))) ∧
      (∀ rank, s.managers rank = ⟨metadata rank, .waiting 0⟩) ∧
      (∀ rank : Fin args.epSize, ∀ l ∈ layerIds, ∃ param,
        (moe l rank).loadAll (metadata rank) (fun i e => expertWeights l i e) calls = .ok param ∧
        ∀ i < numTensors, ∀ y < numPhysicalExperts args config / args.epSize,
          param i y = some ((s.memory rank).weights l i y)) ∧
      Reachable rng T args config activeRanks a layerIds numTensors expertWeights s := by
  obtain ⟨metadata, hbuilt, hplaces⟩ := exists_started rng h hmap
  let s : System V args.epSize := ⟨fun rank => ⟨metadata rank, .waiting 0⟩, fun rank => ⟨fun l i y =>
    expertWeights l i (phy2log.cell l (rank * (numPhysicalExperts args config / args.epSize) + y)), tempBuffers⟩⟩
  refine ⟨metadata, s, hbuilt, fun _ => rfl, fun rank l hl => ?_,
    .start phy2log hplaces (fun _ => rfl) fun _ _ _ _ _ _ _ => rfl⟩
  have hlt := hlayers.layer_lt l hl
  obtain ⟨param, hparam, hspec⟩ := exists_loadAll_mapping rng (fun i e => expertWeights l i e) h hmap rank.isLt
    (hbuilt rank) hlt (hmoe l hl rank rank.isLt) hcalls
  refine ⟨param, hparam, fun i hi y hy => ?_⟩
  obtain ⟨hnonneg, hbound⟩ := hmap.logical l hlt _ (slot_lt h rank.isLt hy)
  obtain ⟨e, he⟩ := Int.eq_ofNat_of_zero_le hnonneg
  rw [he] at hbound
  rw [hspec i y hy e (hall i hi e (Int.ofNat_lt.mp hbound)) he, if_pos fun y' hy' heq =>
    hdistinct rank rank.isLt l hl y hy y' hy' (heq.trans he.symm)]
  exact congrArg (fun q => some (expertWeights l i q)) he.symm

end Rebalanced

end Start

/-! ## Two ranks -/

section Sample

/-- The first rank has the first expert twice. -/
def sampleMapping : Mat ℤ := ⟨2, 4, fun _ p => if p = 2 then 1 else 0⟩

theorem sampleMapping_complete : CompleteMapping sampleMapping sampleLayers.numLayers
    sampleLayers.numLogicalExperts (numPhysicalExperts sampleArgs sampleLayers) where
  rows_eq := rfl
  cols_eq := rfl
  layers_pos := by decide
  num_pos := by decide
  logical := by decide
  onto := by decide

/-- A layer of a rank with two slots. -/
def sampleMoe (layer rank : ℕ) : FusedMoE := ⟨layer, 4, 0, 2, rank⟩

theorem sampleMoe_fits (layer rank : ℕ) : (sampleMoe layer rank).Fits layer rank
    (numPhysicalExperts sampleArgs sampleLayers) (numPhysicalExperts sampleArgs sampleLayers / sampleArgs.epSize) :=
  ⟨rfl, rfl, rfl, rfl⟩

/-- Its second slot is not loaded. -/
theorem loaded_iff_first_sample : ∃ m param,
    initByMapping Random.identity sampleArgs (some sampleLayers) 0 sampleMapping (some 0) = .ok (some m) ∧
    (sampleMoe 0 0).loadAll m (fun _ e => e) [(0, 1), (0, 0)] = .ok param ∧
    param 0 0 = some 0 ∧ param 0 1 = none := by
  obtain ⟨m, param, hm, hparam, hspec⟩ := loaded_iff_first Random.identity (fun _ e => e)
    sampleLayers_serves.fits sampleMapping_complete (by decide : 0 < sampleArgs.epSize)
    (by decide : 0 < sampleLayers.numLayers) (sampleMoe_fits 0 0)
    (by decide : ∀ c ∈ [(0, 1), (0, 0)], c.2 < sampleLayers.numLogicalExperts)
  refine ⟨m, param, hm, hparam, ?_, ?_⟩
  · rw [hspec 0 0 (by decide) 0 (by decide) (by decide), if_pos (by decide)]
  · rw [hspec 0 1 (by decide) 0 (by decide) (by decide), if_neg (by decide)]

theorem rebalanced_loaded_sample : ∃ m param,
    initByEplb Random.identity (TorchVec.exact ℚ) sampleArgs (some sampleLayers) 1 [true, true]
      sampleDump.logicalCount = .ok (some m) ∧
    (sampleMoe 1 1).loadAll m (fun _ e => e) [(0, 1), (0, 0)] = .ok param ∧
    (m.physicalToLogicalMap.cell 1 3 = (1 : ℕ) → param 0 1 = some 1) := by
  obtain ⟨m, param, hm, hparam, hspec⟩ := rebalanced_loaded Random.identity (fun _ e => e) (TorchVec.exact ℚ)
    sampleLayers_serves.fits rfl (show EplbAlgorithm.deepseek.Fits [true, true] sampleLayers.numLogicalExperts
      (numPhysicalExperts sampleArgs sampleLayers) sampleLayers.numGroups sampleArgs.nnodes sampleArgs.epSize from
        trivial) sampleDump_fits
    (by decide : 1 < sampleLayers.numLayers) (sampleMoe_fits 1 1)
    (by decide : ∀ c ∈ [(0, 1), (0, 0)], c.2 < sampleLayers.numLogicalExperts)
  refine ⟨m, param, hm, hparam, fun he => hspec 0 1 (by decide) 1 (by decide) ⟨by decide, fun h => ?_⟩ he⟩
  cases h

theorem exists_started_loaded_sample : ∃ (metadata : ℕ → ExpertLocationMetadata)
    (s : System ℤ sampleArgs.epSize), (∀ rank, s.managers rank = ⟨metadata rank, .waiting 0⟩) ∧
    Reachable Random.identity (TorchVec.exact ℚ) sampleArgs sampleLayers [true, true] sampleManagerArgs [0, 1] 1
      (fun _ _ e => e) s := by
  obtain ⟨metadata, s, -, hmanagers, -, hs⟩ := exists_started_loaded Random.identity (TorchVec.exact ℚ)
    sampleManagerArgs sampleLayers_serves.fits (completeMapping_trivial sampleLayers_serves.fits) sampleLayers_fit
    (by decide) (fun l _ rank _ => sampleMoe_fits l rank)
    (by decide : ∀ c ∈ [(0, 1), (0, 0)], c.2 < sampleLayers.numLogicalExperts)
    (by decide : ∀ i < 1, ∀ e < sampleLayers.numLogicalExperts, (i, e) ∈ [(0, 1), (0, 0)])
    (fun _ _ e => e) fun _ _ => (0 : ℤ)
  exact ⟨metadata, s, hmanagers, hs⟩

end Sample

end MoeSpecialization.Eplb
