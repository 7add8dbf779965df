import MoeSpecialization.Eplb.Elastic
import MoeSpecialization.Eplb.Nearest
import MoeSpecialization.Eplb.RebalanceVec

/-!
# Expert locations

Reference: `ExpertLocationMetadata` in `sglang/srt/eplb/expert_location.py` and `rebalance_experts` in
`sglang/srt/eplb/eplb_algorithms/__init__.py`.

The metadata of a rank says for every layer which logical expert a physical expert is, and which physical
experts a logical one can be sent to. It is built from a mapping or by one of the rebalancing algorithms,
and later updated for some layers at a time. `Located` is what all of its uses rely on. Every way to build
the metadata establishes it, and `update` keeps it.
-/

namespace MoeSpecialization.Eplb

open Py Filling

/-- `ServerArgs.ep_dispatch_algorithm`. -/
inductive EpDispatchAlgorithm where
  | static
  | dynamic
  | fake
deriving DecidableEq, Repr

/-- The server arguments that the expert locations are computed from. -/
structure ServerArgs where
  epSize : ℕ
  nnodes : ℕ
  epNumRedundantExperts : ℕ
  epDispatchAlgorithm : Option EpDispatchAlgorithm
  eplbAlgorithm : String

/-- `ModelConfigForExpertLocation`. -/
structure ModelConfigForExpertLocation where
  numLayers : ℕ
  numLogicalExperts : ℕ
  numGroups : Option ℕ

/-- `EplbAlgorithm`. -/
inductive EplbAlgorithm where
  | deepseek
  | deepseekHierarchical
  | deepseekVec
  | deepseekVecHierarchical
  | elasticityAware
deriving DecidableEq, Repr

namespace EplbAlgorithm

/-- `EplbAlgorithm[name]`. -/
def ofName (name : String) : Except Error EplbAlgorithm :=
  if name = "deepseek" then .ok .deepseek
  else if name = "deepseek_hierarchical" then .ok .deepseekHierarchical
  else if name = "deepseek_vec" then .ok .deepseekVec
  else if name = "deepseek_vec_hierarchical" then .ok .deepseekVecHierarchical
  else if name = "elasticity_aware" then .ok .elasticityAware
  else .error .keyError

/-- `compute_algorithm`. -/
def compute (rawAlgorithm : String) (numGroups : Option ℕ) (numNodes : ℕ) : Except Error EplbAlgorithm :=
  if rawAlgorithm ≠ "auto" then ofName rawAlgorithm
  else match numGroups with
    | none => .ok .deepseek
    | some numGroups =>
      if numNodes = 0 then .error .zeroDivisionError
      else if numGroups % numNodes = 0 then .ok .deepseekHierarchical
      else .ok .deepseek

end EplbAlgorithm

/-- `ExpertLocationMetadata`. -/
structure ExpertLocationMetadata where
  physicalToLogicalMap : Mat ℤ
  physicalToLogicalMapCpu : Mat ℤ
  logicalToAllPhysicalMap : Tensor3 ℤ
  logicalToAllPhysicalMapCpu : Tensor3 ℤ
  logicalToAllPhysicalMapNumValid : Mat ℕ
  logicalToRankDispatchPhysicalMap : Option (Mat ℤ)

namespace ExpertLocationMetadata

/-- `__post_init__`. -/
def postInit (m : ExpertLocationMetadata) : Except Error ExpertLocationMetadata :=
  if m.physicalToLogicalMap.rows = m.logicalToAllPhysicalMap.dim0 ∧
      m.logicalToAllPhysicalMap.dim0 = m.logicalToAllPhysicalMapNumValid.rows ∧
      m.logicalToAllPhysicalMap.dim1 = m.logicalToAllPhysicalMapNumValid.cols ∧
      m.physicalToLogicalMap.cols = m.logicalToAllPhysicalMap.dim2 then .ok m
  else .error .assertionError

end ExpertLocationMetadata

/-- `_init_common`: the number of physical experts. Without a configuration of the model there is none. -/
def initCommon (args : ServerArgs) (config : ModelConfigForExpertLocation) : Except Error ℕ :=
  if args.epSize = 0 then .error .zeroDivisionError
  else if (config.numLogicalExperts + args.epNumRedundantExperts) % args.epSize ≠ 0 then .error .assertionError
  else .ok (config.numLogicalExperts + args.epNumRedundantExperts)

section Mapping

/-- An index of a list of length `n`: negative ones count from its end. -/
def listIndex (n : ℕ) (i : ℤ) : Except Error ℕ :=
  if 0 ≤ i ∧ i < n then .ok i.toNat
  else if -n ≤ i ∧ i < 0 then .ok (i + n).toNat
  else .error .indexError

/-- The lists of a layer: every physical expert is appended to that of its logical one. -/
def candidateLists (phy2log : ℕ → ℤ) (numLogical numPhysical : ℕ) : Except Error (ℕ → List ℤ) :=
  (List.range numPhysical).foldlM (fun lists p => do
    let l ← listIndex numLogical (phy2log p)
    return Function.update lists l (lists l ++ [(p : ℤ)])) fun _ => []

/-- A list is replaced by the nearest of its physical experts, if there is one. -/
def replaceByNearest (t : Topology) (moeEpRank : ℕ) (candidates : List ℤ) : Except Error (List ℤ) := do
  let nearest ← findNearestExpert t candidates moeEpRank
  return if nearest ≠ -1 then [nearest] else candidates

/-- `_pad_nested_array` with `-1`, and the tensor of the result. -/
def padNestedArray (arr : List (List (List ℤ))) : Except Error (Tensor3 ℤ) :=
  match (arr.flatten.map List.length).max? with
  | none => .error (.valueError "max() iterable argument is empty")
  | some maxLen => .ok ⟨arr.length, (arr.headD []).length, maxLen, fun layer logical k =>
      ((arr.getD layer []).getD logical []).getD k (-1)⟩

/-- `_compute_logical_to_all_physical_map`. -/
def computeLogicalToAllPhysicalMap (args : ServerArgs) (phy2log : Mat ℤ) (numLogical epSize : ℕ)
    (moeEpRank : Option ℕ) : Except Error (Tensor3 ℤ) := do
  let layers ← (List.range phy2log.rows).mapM fun layer => do
    let lists ← candidateLists (phy2log.cell layer) numLogical phy2log.cols
    return (List.range numLogical).map lists
  match moeEpRank with
  | none => padNestedArray layers
  | some moeEpRank =>
    if args.nnodes = 0 ∨ epSize = 0 then throw .zeroDivisionError
    let t : Topology := ⟨phy2log.cols / epSize, args.epSize / args.nnodes⟩
    padNestedArray (← layers.mapM fun lists => lists.mapM (replaceByNearest t moeEpRank))

end Mapping

section Construction

variable {σ : Type} (rng : Random σ)

/-- `_init_raw`, with the seed that `compute_logical_to_rank_dispatch_physical_map` has as its default. -/
def initRaw (args : ServerArgs) (epSize rank : ℕ) (phy2log : Mat ℤ) (log2phy : Tensor3 ℤ) :
    Except Error ExpertLocationMetadata := do
  let padded := log2phy.widen phy2log.cols (-1)
  let numValid : Mat ℕ := ⟨log2phy.dim0, log2phy.dim1, fun layer logical =>
    ((List.range log2phy.dim2).map (log2phy.cell layer logical)).countP (· ≠ -1)⟩
  let dispatch ← if args.epDispatchAlgorithm = some .static then do
      if epSize = 0 then throw .zeroDivisionError
      let table ← computeLogicalToRankDispatchPhysicalMap rng args.epSize args.nnodes log2phy epSize
        phy2log.cols (rank % epSize) 42
      pure (some table)
    else pure none
  ExpertLocationMetadata.postInit ⟨phy2log, phy2log, padded, padded, numValid, dispatch⟩

/-- `init_by_mapping`. -/
def initByMapping (args : ServerArgs) (config : Option ModelConfigForExpertLocation) (rank : ℕ)
    (phy2log : Mat ℤ) (moeEpRank : Option ℕ) : Except Error (Option ExpertLocationMetadata) :=
  match config with
  | none => .ok none
  | some config => do
    let _ ← initCommon args config
    let log2phy ← computeLogicalToAllPhysicalMap args phy2log config.numLogicalExperts args.epSize moeEpRank
    return some (← initRaw rng args args.epSize rank phy2log log2phy)

/-- `init_trivial`. -/
def initTrivial (args : ServerArgs) (config : Option ModelConfigForExpertLocation) (rank moeEpRank : ℕ) :
    Except Error (Option ExpertLocationMetadata) :=
  match config with
  | none => .ok none
  | some c => do
    let numPhysical ← initCommon args c
    if c.numLogicalExperts = 0 ∧ 0 < c.numLayers * numPhysical then throw (.runtimeError "ZeroDivisionError")
    initByMapping rng args config rank
      ⟨c.numLayers, numPhysical, fun _ p => (p % c.numLogicalExperts : ℕ)⟩ (some moeEpRank)

variable {K : Type} [Zero K] [Add K] [Mul K] [LT K] [DecidableLT K] [NatCast K] [Div K]

namespace EplbAlgorithm

/-- `eplb_algorithms.rebalance_experts`, with the flags of the ranks. -/
def rebalanceExperts (algorithm : EplbAlgorithm) (T : TorchVec K) (tokensPerExpert : Tensor3 K)
    (numPhysical numLocal : ℕ) (numGroups : Option ℕ) (numNodes : ℕ) (activeRanks : List Bool) :
    Except Error (Mat ℤ × Tensor3 ℤ × Mat ℕ) :=
  let vec := Vec.rebalanceExperts T tokensPerExpert numPhysical numLocal numGroups numNodes
  let weight := tokensPerExpert.sumFirst
  let deepseek := Eplb.rebalanceExperts T.toTorch weight numPhysical numGroups numNodes (numPhysical / numLocal)
  match algorithm with
  | .deepseek => if numLocal = 0 then .error .zeroDivisionError else deepseek false
  | .deepseekHierarchical => if numLocal = 0 then .error .zeroDivisionError else deepseek true
  | .deepseekVec => vec false
  | .deepseekVecHierarchical => vec true
  | .elasticityAware =>
    if numLocal = 0 then .error .zeroDivisionError
    else Elastic.rebalanceExperts T.toTorch weight numPhysical numGroups numNodes (numPhysical / numLocal) true
      activeRanks

end EplbAlgorithm

/-- `init_by_eplb`, from the counts of the logical experts in every recorded step. -/
def initByEplb (T : TorchVec K) (args : ServerArgs) (config : Option ModelConfigForExpertLocation) (rank : ℕ)
    (activeRanks : List Bool) (logicalCount : Tensor3 ℕ) : Except Error (Option ExpertLocationMetadata) :=
  match config with
  | none => .ok none
  | some config => do
    let numPhysical ← initCommon args config
    let algorithm ← EplbAlgorithm.compute args.eplbAlgorithm config.numGroups args.nnodes
    let maps ← algorithm.rebalanceExperts T
      ⟨logicalCount.dim0, logicalCount.dim1, logicalCount.dim2, fun s l e => (logicalCount.cell s l e : K)⟩
      numPhysical (numPhysical / args.epSize) config.numGroups args.nnodes activeRanks
    return some (← initRaw rng args args.epSize rank maps.1 maps.2.1)

end Construction

/-! ## The maps of a layer -/

/-- The physical experts that a logical one of the layer can be sent to: the first `numValid l` entries of
its row, all different, are experts of `live` that hold it, and the others are `-1`. -/
structure LayerLocated (numLogical numPhysical : ℕ) (live : Set ℕ) (width : ℕ) (phy2log : ℕ → ℤ)
    (log2phy : ℕ → ℕ → ℤ) (numValid : ℕ → ℕ) : Prop where
  live_lt : ∀ s ∈ live, s < numPhysical
  logical : ∀ s < numPhysical, 0 ≤ phy2log s ∧ phy2log s < numLogical
  valid_pos : ∀ l < numLogical, 0 < numValid l
  valid_le : ∀ l < numLogical, numValid l ≤ width
  slot : ∀ l < numLogical, ∀ k < numValid l, ∃ s ∈ live, log2phy l k = s ∧ phy2log s = l
  inj : ∀ l < numLogical, ∀ j < numValid l, ∀ k < numValid l, log2phy l j = log2phy l k → j = k
  pad : ∀ l < numLogical, ∀ k < width, numValid l ≤ k → log2phy l k = -1

section Layers

variable {numLogical numPhysical width : ℕ} {live : Set ℕ} {phy2log : ℕ → ℤ} {log2phy : ℕ → ℕ → ℤ}
  {numValid : ℕ → ℕ}

/-- Maps that agree locate the experts. -/
theorem MapsAgree.layerLocated (h : MapsAgree numLogical live width phy2log log2phy numValid)
    (hlive : ∀ s ∈ live, s < numPhysical)
    (hlogical : ∀ s < numPhysical, 0 ≤ phy2log s ∧ phy2log s < numLogical) :
    LayerLocated numLogical numPhysical live width phy2log log2phy numValid where
  live_lt := hlive
  logical := hlogical
  valid_pos := h.logcnt_pos
  valid_le := h.logcnt_le
  slot := h.slot
  inj := fun l hl j hj k hk hjk => by
    obtain ⟨s, hs, hval, hsl⟩ := h.slot l hl j hj
    exact (h.listed s hs l hl hsl).unique ⟨hj, hval⟩ ⟨hk, hjk ▸ hval⟩
  pad := h.pad

namespace LayerLocated

/-- An expert has at most as many replicas as there are physical experts. -/
theorem valid_le_physical (h : LayerLocated numLogical numPhysical live width phy2log log2phy numValid)
    {l : ℕ} (hl : l < numLogical) : numValid l ≤ numPhysical := by
  have hcard := Finset.card_le_card_of_injOn (s := Finset.range (numValid l)) (t := Finset.range numPhysical)
    (fun k => (log2phy l k).toNat) (fun k hk => ?_) fun j hj k hk hjk => ?_
  · rwa [Finset.card_range, Finset.card_range] at hcard
  · obtain ⟨s, hs, hval, -⟩ := h.slot l hl k (Finset.mem_range.mp hk)
    show (log2phy l k).toNat ∈ _
    rw [hval, Int.toNat_natCast]
    exact Finset.mem_coe.mpr (Finset.mem_range.mpr (h.live_lt s hs))
  · have hj := Finset.mem_range.mp (Finset.mem_coe.mp hj)
    have hk := Finset.mem_range.mp (Finset.mem_coe.mp hk)
    obtain ⟨s, -, hs, -⟩ := h.slot l hl j hj
    obtain ⟨t, -, ht, -⟩ := h.slot l hl k hk
    have hjk : (log2phy l j).toNat = (log2phy l k).toNat := hjk
    refine h.inj l hl j hj k hk ?_
    rw [hs, ht, Int.toNat_natCast, Int.toNat_natCast] at hjk
    rw [hs, ht, hjk]

/-- Padding the rows to the number of physical experts. -/
theorem widen (h : LayerLocated numLogical numPhysical live width phy2log log2phy numValid) :
    LayerLocated numLogical numPhysical live numPhysical phy2log
      (fun l k => if k < width then log2phy l k else -1) numValid where
  live_lt := h.live_lt
  logical := h.logical
  valid_pos := h.valid_pos
  valid_le := fun _ hl => h.valid_le_physical hl
  slot := fun l hl k hk => by
    rw [if_pos (lt_of_lt_of_le hk (h.valid_le l hl))]
    exact h.slot l hl k hk
  inj := fun l hl j hj k hk => by
    rw [if_pos (lt_of_lt_of_le hj (h.valid_le l hl)), if_pos (lt_of_lt_of_le hk (h.valid_le l hl))]
    exact h.inj l hl j hj k hk
  pad := fun l hl k _ hk => by
    split
    · rename_i hlt
      exact h.pad l hl k hlt hk
    · rfl

theorem congr (h : LayerLocated numLogical numPhysical live width phy2log log2phy numValid)
    {phy2log' : ℕ → ℤ} {log2phy' : ℕ → ℕ → ℤ} {numValid' : ℕ → ℕ}
    (hphy : ∀ s < numPhysical, phy2log' s = phy2log s)
    (hlog : ∀ l < numLogical, ∀ k < width, log2phy' l k = log2phy l k)
    (hvalid : ∀ l < numLogical, numValid' l = numValid l) :
    LayerLocated numLogical numPhysical live width phy2log' log2phy' numValid' where
  live_lt := h.live_lt
  logical := fun s hs => by
    rw [hphy s hs]
    exact h.logical s hs
  valid_pos := fun l hl => by
    rw [hvalid l hl]
    exact h.valid_pos l hl
  valid_le := fun l hl => by
    rw [hvalid l hl]
    exact h.valid_le l hl
  slot := fun l hl k hk => by
    rw [hvalid l hl] at hk
    obtain ⟨s, hs, hval, hsl⟩ := h.slot l hl k hk
    refine ⟨s, hs, ?_, by rw [hphy s (h.live_lt s hs), hsl]⟩
    rw [hlog l hl k (lt_of_lt_of_le hk (h.valid_le l hl)), hval]
  inj := fun l hl j hj k hk => by
    rw [hvalid l hl] at hj hk
    rw [hlog l hl j (lt_of_lt_of_le hj (h.valid_le l hl)), hlog l hl k (lt_of_lt_of_le hk (h.valid_le l hl))]
    exact h.inj l hl j hj k hk
  pad := fun l hl k hk hlk => by
    rw [hvalid l hl] at hlk
    rw [hlog l hl k hk]
    exact h.pad l hl k hk hlk

/-- The entries that are not `-1`, in their order. -/
theorem filter_row (h : LayerLocated numLogical numPhysical live width phy2log log2phy numValid) {l : ℕ}
    (hl : l < numLogical) : ((List.range width).map (log2phy l)).filter (· ≠ -1) =
      (List.range (numValid l)).map (log2phy l) := by
  have hsplit : List.range width = List.range (numValid l) ++
      (List.range (width - numValid l)).map (numValid l + ·) := by
    rw [← List.range_add, Nat.add_sub_cancel' (h.valid_le l hl)]
  rw [hsplit, List.map_append, List.filter_append]
  have hvalid : ((List.range (numValid l)).map (log2phy l)).filter (· ≠ -1) =
      (List.range (numValid l)).map (log2phy l) := by
    refine List.filter_eq_self.mpr fun p hp => decide_eq_true ?_
    obtain ⟨k, hk, rfl⟩ := List.mem_map.mp hp
    obtain ⟨s, -, hval, -⟩ := h.slot l hl k (List.mem_range.mp hk)
    rw [hval]
    omega
  have hrest : (((List.range (width - numValid l)).map (numValid l + ·)).map (log2phy l)).filter (· ≠ -1) =
      [] := by
    refine List.filter_eq_nil_iff.mpr fun p hp => ?_
    obtain ⟨k, hk, rfl⟩ := List.mem_map.mp hp
    obtain ⟨j, hj, rfl⟩ := List.mem_map.mp hk
    have hj := List.mem_range.mp hj
    rw [h.pad l hl _ (by omega) (by omega)]
    simp
  rw [hvalid, hrest, List.append_nil]

end LayerLocated

end Layers

/-! ## The metadata -/

/-- The metadata locates the experts: in every layer its maps do, the copies on the CPU hold the same, and
static dispatch chooses one of the physical experts that are listed. -/
structure ExpertLocationMetadata.Located (m : ExpertLocationMetadata) (numLayers numLogical numPhysical : ℕ)
    (live : ℕ → Set ℕ) : Prop where
  phy : m.physicalToLogicalMap.Is numLayers numPhysical m.physicalToLogicalMap.cell
  phy_cpu : m.physicalToLogicalMapCpu.Is numLayers numPhysical m.physicalToLogicalMap.cell
  log : m.logicalToAllPhysicalMap.Is numLayers numLogical numPhysical m.logicalToAllPhysicalMap.cell
  log_cpu : m.logicalToAllPhysicalMapCpu.Is numLayers numLogical numPhysical m.logicalToAllPhysicalMap.cell
  valid : m.logicalToAllPhysicalMapNumValid.Is numLayers numLogical m.logicalToAllPhysicalMapNumValid.cell
  layer : ∀ r < numLayers, LayerLocated numLogical numPhysical (live r) numPhysical
    (m.physicalToLogicalMap.cell r) (m.logicalToAllPhysicalMap.cell r) (m.logicalToAllPhysicalMapNumValid.cell r)
  dispatch : ∀ d ∈ m.logicalToRankDispatchPhysicalMap, d.Is numLayers numLogical d.cell ∧
    ∀ r < numLayers, ∀ l < numLogical, ∃ k < m.logicalToAllPhysicalMapNumValid.cell r l,
      d.cell r l = m.logicalToAllPhysicalMap.cell r l k

section Raw

variable {σ : Type} (rng : Random σ)

/-- The sizes that the nearest expert is computed from. -/
structure ServerArgs.Fits (args : ServerArgs) (numPhysical : ℕ) : Prop where
  ep_pos : 0 < args.epSize
  ep_le : args.epSize ≤ numPhysical
  nodes_pos : 0 < args.nnodes
  nodes_le : args.nnodes ≤ args.epSize

/-- The padding of the rows is not read. -/
theorem raw_widen {numLogical numPhysical r l : ℕ} {live : Set ℕ} {phy2log : ℕ → ℤ} {log2phy : Tensor3 ℤ}
    {cnt : ℕ → ℕ} (h : LayerLocated numLogical numPhysical live log2phy.dim2 phy2log (log2phy.cell r) cnt)
    (hl : l < numLogical) : logicalToAllPhysicalRaw (log2phy.widen numPhysical (-1)) r l =
      (List.range (cnt l)).map (log2phy.cell r l) := by
  refine (h.widen.filter_row hl).trans (List.map_congr_left fun k hk => ?_)
  rw [if_pos (lt_of_lt_of_le (List.mem_range.mp hk) (h.valid_le l hl))]

/-- `_init_raw` makes metadata that locates the experts, and with static dispatch the ranks share one
table. -/
theorem exists_initRaw {args : ServerArgs} {numLayers numLogical numPhysical : ℕ} {phy2log : Mat ℤ}
    {log2phy : Tensor3 ℤ} {live : ℕ → Set ℕ} {cnt : ℕ → ℕ → ℕ} (hargs : args.Fits numPhysical)
    (hphy : phy2log.rows = numLayers ∧ phy2log.cols = numPhysical)
    (hlog : log2phy.dim0 = numLayers ∧ log2phy.dim1 = numLogical)
    (hlayer : ∀ r < numLayers, LayerLocated numLogical numPhysical (live r) log2phy.dim2
      (phy2log.cell r) (log2phy.cell r) (cnt r)) :
    ∃ table : ℕ → ℕ → ℕ → ℤ,
      (∀ rank, ∃ m, initRaw rng args args.epSize rank phy2log log2phy = .ok m ∧
        m.Located numLayers numLogical numPhysical live ∧ m.physicalToLogicalMap = phy2log ∧
        m.logicalToAllPhysicalMap = log2phy.widen numPhysical (-1) ∧
        if args.epDispatchAlgorithm = some .static then
          ∃ d, m.logicalToRankDispatchPhysicalMap = some d ∧ d.Is numLayers numLogical (table (rank % args.epSize))
        else m.logicalToRankDispatchPhysicalMap = none) ∧
      ∀ r < numLayers, ∀ l < numLogical,
        NearestOrFair ⟨numPhysical / args.epSize, args.epSize / args.nnodes⟩ args.epSize
          (logicalToAllPhysicalRaw (log2phy.widen numPhysical (-1)) r l) fun rank => table rank r l := by
  have hraw (r : ℕ) (hr : r < numLayers) (l : ℕ) (hl : l < numLogical) :
      logicalToAllPhysicalRaw log2phy r l = (List.range (cnt r l)).map (log2phy.cell r l) :=
    (hlayer r hr).filter_row hl
  have hcandidates : Candidates log2phy := by
    intro r hr l hl
    rw [hlog.1] at hr
    rw [hlog.2] at hl
    rw [hraw r hr l hl]
    constructor
    · intro hnil
      rw [List.map_eq_nil_iff, List.range_eq_nil] at hnil
      exact absurd hnil ((hlayer r hr).valid_pos l hl).ne'
    · refine List.nodup_range.map_on fun j hj k hk hjk => ?_
      exact (hlayer r hr).inj l hl j (List.mem_range.mp hj) k (List.mem_range.mp hk) hjk
  obtain ⟨table, htable, hnear⟩ := exists_dispatchTable rng hargs.ep_pos hargs.ep_le hargs.nodes_pos
    hargs.nodes_le hcandidates 42
  rw [hlog.1, hlog.2] at htable hnear
  refine ⟨table, fun rank => ?_, fun r hr l hl => ?_⟩
  · have hrank : rank % args.epSize < args.epSize := Nat.mod_lt _ hargs.ep_pos
    obtain ⟨d, hd, hdIs⟩ := htable _ hrank
    let m (dispatch : Option (Mat ℤ)) : ExpertLocationMetadata := ⟨phy2log, phy2log,
      log2phy.widen numPhysical (-1), log2phy.widen numPhysical (-1),
      ⟨log2phy.dim0, log2phy.dim1, fun r l => ((List.range log2phy.dim2).map (log2phy.cell r l)).countP (· ≠ -1)⟩,
      dispatch⟩
    have hvalid (r : ℕ) (hr : r < numLayers) (l : ℕ) (hl : l < numLogical) :
        ((List.range log2phy.dim2).map (log2phy.cell r l)).countP (· ≠ -1) = cnt r l := by
      rw [List.countP_eq_length_filter, (hlayer r hr).filter_row hl, List.length_map, List.length_range]
    have hlocated (dispatch : Option (Mat ℤ)) (hdispatch : ∀ d ∈ dispatch,
        d.Is numLayers numLogical (table (rank % args.epSize))) :
        (m dispatch).Located numLayers numLogical numPhysical live := by
      refine ⟨⟨hphy.1, hphy.2, fun _ _ _ _ => rfl⟩, ⟨hphy.1, hphy.2, fun _ _ _ _ => rfl⟩,
        ⟨hlog.1, hlog.2, rfl, fun _ _ _ _ _ _ => rfl⟩, ⟨hlog.1, hlog.2, rfl, fun _ _ _ _ _ _ => rfl⟩,
        ⟨hlog.1, hlog.2, fun _ _ _ _ => rfl⟩, fun r hr => ?_, fun d hd => ?_⟩
      · exact (hlayer r hr).widen.congr (fun _ _ => rfl) (fun _ _ _ _ => rfl) fun l hl => hvalid r hr l hl
      · have hdIs := hdispatch d hd
        refine ⟨⟨hdIs.rows_eq, hdIs.cols_eq, fun _ _ _ _ => rfl⟩, fun r hr l hl => ?_⟩
        have hmem := (hnear r hr l hl).mem _ hrank
        rw [hraw r hr l hl] at hmem
        obtain ⟨k, hk, hval⟩ := List.mem_map.mp hmem
        have hk := List.mem_range.mp hk
        refine ⟨k, ?_, ?_⟩
        · show k < ((List.range log2phy.dim2).map (log2phy.cell r l)).countP (· ≠ -1)
          rwa [hvalid r hr l hl]
        · show d.cell r l = if k < log2phy.dim2 then log2phy.cell r l k else -1
          rw [hdIs.cell_eq r hr l hl, if_pos (lt_of_lt_of_le hk ((hlayer r hr).valid_le l hl))]
          exact hval.symm
    have hpost (dispatch : Option (Mat ℤ)) : (m dispatch).postInit = .ok (m dispatch) := by
      refine if_pos ⟨?_, rfl, rfl, hphy.2⟩
      show phy2log.rows = log2phy.dim0
      rw [hphy.1, hlog.1]
    by_cases hstatic : args.epDispatchAlgorithm = some .static
    · refine ⟨m (some d), ?_, hlocated _ (fun d' hd' => ?_), rfl, rfl, ?_⟩
      · rw [initRaw]
        simp only [if_pos hstatic, if_neg hargs.ep_pos.ne', hphy.2, hd]
        exact hpost (some d)
      · rwa [← Option.some.inj hd']
      · rw [if_pos hstatic]
        exact ⟨d, rfl, hdIs⟩
    · refine ⟨m none, ?_, hlocated _ (fun d' hd' => absurd hd' (by simp)), rfl, rfl, ?_⟩
      · rw [initRaw]
        simp only [if_neg hstatic, hphy.2]
        exact hpost none
      · rw [if_neg hstatic]
  · rw [raw_widen (hlayer r hr) hl]
    have hnear := hnear r hr l hl
    rwa [hraw r hr l hl] at hnear

end Raw

/-! ## Locations from a mapping -/

section Mapping

/-- The physical experts of a logical one, in their order. -/
def replicas (phy2log : ℕ → ℤ) (numPhysical l : ℕ) : List ℤ :=
  ((List.range numPhysical).filter fun s : ℕ => phy2log s = l).map fun s : ℕ => (s : ℤ)

section Lists

variable {phy2log : ℕ → ℤ} {numLogical numPhysical : ℕ}

theorem mem_replicas {l : ℕ} {p : ℤ} :
    p ∈ replicas phy2log numPhysical l ↔ ∃ s < numPhysical, p = s ∧ phy2log s = l := by
  rw [replicas, List.mem_map]
  constructor
  · rintro ⟨s, hs, rfl⟩
    obtain ⟨hlt, hsl⟩ := List.mem_filter.mp hs
    exact ⟨s, List.mem_range.mp hlt, rfl, of_decide_eq_true hsl⟩
  · rintro ⟨s, hlt, rfl, hsl⟩
    exact ⟨s, List.mem_filter.mpr ⟨List.mem_range.mpr hlt, decide_eq_true hsl⟩, rfl⟩

theorem nodup_replicas (l : ℕ) : (replicas phy2log numPhysical l).Nodup :=
  (List.nodup_range.filter _).map fun _ _ h => Int.natCast_inj.mp h

theorem neg_one_notMem_replicas (l : ℕ) : -1 ∉ replicas phy2log numPhysical l := by
  intro hmem
  obtain ⟨s, -, hs, -⟩ := mem_replicas.mp hmem
  omega

theorem replicas_succ (n l : ℕ) : replicas phy2log (n + 1) l =
    if phy2log n = l then replicas phy2log n l ++ [(n : ℤ)] else replicas phy2log n l := by
  rw [replicas, List.range_succ, List.filter_append, List.map_append]
  split
  · rename_i hn
    rw [List.filter_cons, if_pos (decide_eq_true hn)]
    rfl
  · rename_i hn
    rw [List.filter_cons, if_neg (by simpa using hn)]
    exact List.append_nil _

/-- If every entry is a logical expert, the lists are the replicas. -/
theorem candidateLists_eq (n : ℕ) (h : ∀ s < n, 0 ≤ phy2log s ∧ phy2log s < numLogical) :
    candidateLists phy2log numLogical n = .ok (replicas phy2log n) := by
  induction n with
  | zero => rfl
  | succ n ih =>
    have hn := h n (Nat.lt_succ_self n)
    rw [candidateLists, List.range_succ, List.foldlM_append]
    rw [candidateLists] at ih
    rw [ih fun s hs => h s (Nat.lt_succ_of_lt hs), ok_bind, List.foldlM_cons, listIndex, if_pos hn]
    show Except.ok _ = _
    refine congrArg Except.ok (funext fun l => ?_)
    rw [replicas_succ]
    by_cases hl : (phy2log n).toNat = l
    · rw [if_pos (by omega), ← hl, Function.update_self]
    · rw [if_neg (by omega), Function.update_of_ne (Ne.symm hl)]

end Lists

section Nearest

variable {t : Topology} {candidates : List ℤ} {rank : ℕ}

/-- If the GPU has replicas, the nearest one is the first of them. -/
theorem findNearestExpert_of_gpu {p : ℤ} {rest : List ℤ} (hlocal : 0 < t.numLocalGpuPhysicalExperts)
    (h : candidates.filter (fun q => t.gpuId q = rank) = p :: rest) :
    findNearestExpert t candidates rank = .ok p := by
  unfold findNearestExpert
  split
  · rename_i hone
    obtain ⟨c, rfl⟩ := List.length_eq_one_iff.mp hone
    have hp : p ∈ [c] := List.mem_of_mem_filter (h ▸ List.mem_cons_self)
    rw [List.mem_singleton.mp hp]
    rfl
  · rw [if_neg (by omega), h]

/-- The list becomes a nearest expert of it, or it stays because all of its experts are on other nodes. -/
theorem exists_replaceByNearest (hlocal : 0 < t.numLocalGpuPhysicalExperts) (hgpus : 0 < t.numGpusPerNode)
    (rank : ℕ) (hvalid : -1 ∉ candidates) :
    ∃ row, replaceByNearest t rank candidates = .ok row ∧
      (row = candidates ∧ Remote t candidates rank ∨ ∃ p ∈ candidates, row = [p]) := by
  obtain ⟨p, hp, hspec⟩ := exists_findNearestExpert hlocal hgpus candidates rank
  rw [replaceByNearest, hp]
  rcases hspec with ⟨rfl, -, hremote⟩ | ⟨hmem, -⟩
  · exact ⟨candidates, rfl, .inl ⟨rfl, hremote⟩⟩
  · refine ⟨[p], ?_, .inr ⟨p, hmem, rfl⟩⟩
    have hne : p ≠ -1 := fun h => hvalid (h ▸ hmem)
    show Except.ok (if p ≠ -1 then [p] else candidates) = _
    rw [if_pos hne]

end Nearest

section Rows

variable {phy2log : ℕ → ℤ} {numLogical numPhysical : ℕ}

/-- Rows of different replicas locate the experts. -/
theorem layerLocated_of_rows {rows : ℕ → List ℤ} {width : ℕ}
    (hlogical : ∀ s < numPhysical, 0 ≤ phy2log s ∧ phy2log s < numLogical)
    (hne : ∀ l < numLogical, rows l ≠ []) (hnodup : ∀ l < numLogical, (rows l).Nodup)
    (hmem : ∀ l < numLogical, ∀ p ∈ rows l, p ∈ replicas phy2log numPhysical l)
    (hwidth : ∀ l < numLogical, (rows l).length ≤ width) :
    LayerLocated numLogical numPhysical (Set.Iio numPhysical) width phy2log (fun l k => (rows l).getD k (-1))
      fun l => (rows l).length where
  live_lt := fun _ hs => hs
  logical := hlogical
  valid_pos := fun l hl => List.length_pos_of_ne_nil (hne l hl)
  valid_le := hwidth
  slot := fun l hl k hk => by
    rw [List.getD_eq_getElem?_getD, List.getElem?_eq_getElem hk, Option.getD_some]
    obtain ⟨s, hs, hval, hsl⟩ := mem_replicas.mp (hmem l hl _ (List.getElem_mem hk))
    exact ⟨s, hs, hval, hsl⟩
  inj := fun l hl j hj k hk hjk => by
    rw [List.getD_eq_getElem?_getD, List.getElem?_eq_getElem hj, Option.getD_some,
      List.getD_eq_getElem?_getD, List.getElem?_eq_getElem hk, Option.getD_some] at hjk
    exact (hnodup l hl).getElem_inj_iff.mp hjk
  pad := fun l _ k _ hk => by
    rw [List.getD_eq_getElem?_getD, List.getElem?_eq_none hk, Option.getD_none]

theorem getD_map_range {α : Type} (f : ℕ → α) (d : α) {n i : ℕ} (hi : i < n) :
    ((List.range n).map f).getD i d = f i := by
  rw [List.getD_eq_getElem?_getD, List.getElem?_map, List.getElem?_range hi, Option.map_some, Option.getD_some]

/-- The padded array has room for every row. -/
theorem exists_padNestedArray {numLayers : ℕ} (rows : ℕ → ℕ → List ℤ) (hlayers : 0 < numLayers)
    (hnum : 0 < numLogical) :
    ∃ t : Tensor3 ℤ, padNestedArray ((List.range numLayers).map fun r => (List.range numLogical).map (rows r)) =
        .ok t ∧ t.dim0 = numLayers ∧ t.dim1 = numLogical ∧
      ∀ r < numLayers, ∀ l < numLogical, (rows r l).length ≤ t.dim2 ∧
        ∀ k, t.cell r l k = (rows r l).getD k (-1) := by
  let arr := (List.range numLayers).map fun r => (List.range numLogical).map (rows r)
  have hlen {r l : ℕ} (hr : r < numLayers) (hl : l < numLogical) :
      (rows r l).length ∈ arr.flatten.map List.length := by
    refine List.mem_map_of_mem (List.mem_flatten.mpr ⟨(List.range numLogical).map (rows r), ?_, ?_⟩)
    · exact List.mem_map.mpr ⟨r, List.mem_range.mpr hr, rfl⟩
    · exact List.mem_map.mpr ⟨l, List.mem_range.mpr hl, rfl⟩
  rcases hmax : (arr.flatten.map List.length).max? with _ | width
  · have hfirst := hlen hlayers hnum
    rw [List.max?_eq_none_iff.mp hmax] at hfirst
    cases hfirst
  · refine ⟨⟨arr.length, (arr.headD []).length, width, fun r l k =>
      ((arr.getD r []).getD l []).getD k (-1)⟩, ?_, ?_, ?_, fun r hr l hl => ⟨?_, fun k => ?_⟩⟩
    · rw [padNestedArray, hmax]
    · show arr.length = numLayers
      rw [List.length_map, List.length_range]
    · obtain ⟨n, rfl⟩ := Nat.exists_eq_succ_of_ne_zero hlayers.ne'
      show (arr.headD []).length = numLogical
      have hhead : arr.headD [] = (List.range numLogical).map (rows 0) := by
        show ((List.range (n + 1)).map fun r => (List.range numLogical).map (rows r)).headD [] = _
        rw [List.range_succ_eq_map]
        rfl
      rw [hhead, List.length_map, List.length_range]
    · exact (List.max?_eq_some_iff.mp hmax).2 _ (hlen hr hl)
    · show ((arr.getD r []).getD l []).getD k (-1) = _
      rw [getD_map_range _ _ hr, getD_map_range _ _ hl]

end Rows

/-- A mapping that uses every logical expert. -/
structure CompleteMapping (phy2log : Mat ℤ) (numLayers numLogical numPhysical : ℕ) : Prop where
  rows_eq : phy2log.rows = numLayers
  cols_eq : phy2log.cols = numPhysical
  layers_pos : 0 < numLayers
  num_pos : 0 < numLogical
  logical : ∀ r < numLayers, ∀ s < numPhysical, 0 ≤ phy2log.cell r s ∧ phy2log.cell r s < numLogical
  onto : ∀ r < numLayers, ∀ l < numLogical, ∃ s < numPhysical, phy2log.cell r s = l

/-- The row that a rank keeps of the replicas of an expert. -/
def keptRow (t : Topology) (moeEpRank : Option ℕ) (candidates : List ℤ) : Except Error (List ℤ) :=
  match moeEpRank with
  | none => .ok candidates
  | some moeEpRank => replaceByNearest t moeEpRank candidates

/-- From a complete mapping, the map lists replicas of every expert. -/
theorem exists_computeLogicalToAllPhysicalMap {args : ServerArgs} {phy2log : Mat ℤ}
    {numLayers numLogical numPhysical : ℕ} (hargs : args.Fits numPhysical)
    (h : CompleteMapping phy2log numLayers numLogical numPhysical) (moeEpRank : Option ℕ) :
    ∃ (log2phy : Tensor3 ℤ) (rows : ℕ → ℕ → List ℤ),
      computeLogicalToAllPhysicalMap args phy2log numLogical args.epSize moeEpRank = .ok log2phy ∧
      (log2phy.dim0 = numLayers ∧ log2phy.dim1 = numLogical) ∧
      ∀ r < numLayers,
        (∀ l < numLogical, keptRow ⟨numPhysical / args.epSize, args.epSize / args.nnodes⟩ moeEpRank
          (replicas (phy2log.cell r) numPhysical l) = .ok (rows r l) ∧ log2phy.cell r l = fun k =>
            (rows r l).getD k (-1)) ∧
        LayerLocated numLogical numPhysical (Set.Iio numPhysical) log2phy.dim2 (phy2log.cell r)
          (log2phy.cell r) fun l => (rows r l).length := by
  let t : Topology := ⟨numPhysical / args.epSize, args.epSize / args.nnodes⟩
  have hlocal : 0 < t.numLocalGpuPhysicalExperts := Nat.div_pos hargs.ep_le hargs.ep_pos
  have hgpus : 0 < t.numGpusPerNode := Nat.div_pos hargs.nodes_le hargs.nodes_pos
  let rows (r l : ℕ) : List ℤ :=
    (keptRow t moeEpRank (replicas (phy2log.cell r) numPhysical l)).toOption.getD []
  have hne (r : ℕ) (hr : r < numLayers) (l : ℕ) (hl : l < numLogical) :
      replicas (phy2log.cell r) numPhysical l ≠ [] := by
    obtain ⟨s, hs, hsl⟩ := h.onto r hr l hl
    exact List.ne_nil_of_mem (mem_replicas.mpr ⟨s, hs, rfl, hsl⟩)
  have hkept (r l : ℕ) : ∃ row, keptRow t moeEpRank (replicas (phy2log.cell r) numPhysical l) = .ok row ∧
      (row = replicas (phy2log.cell r) numPhysical l ∨
        ∃ p ∈ replicas (phy2log.cell r) numPhysical l, row = [p]) := by
    rcases moeEpRank with _ | rank
    · exact ⟨_, rfl, .inl rfl⟩
    · obtain ⟨row, hrow, hspec⟩ := exists_replaceByNearest hlocal hgpus rank (neg_one_notMem_replicas l)
      exact ⟨row, hrow, hspec.imp_left And.left⟩
  have hrows (r l : ℕ) : keptRow t moeEpRank (replicas (phy2log.cell r) numPhysical l) = .ok (rows r l) := by
    obtain ⟨row, hrow, -⟩ := hkept r l
    show _ = Except.ok ((keptRow t moeEpRank (replicas (phy2log.cell r) numPhysical l)).toOption.getD [])
    rw [hrow]
    rfl
  have hspec (r l : ℕ) : rows r l = replicas (phy2log.cell r) numPhysical l ∨
      ∃ p ∈ replicas (phy2log.cell r) numPhysical l, rows r l = [p] := by
    obtain ⟨row, hrow, hspec⟩ := hkept r l
    rwa [← Except.ok.inj ((hrows r l).symm.trans hrow)] at hspec
  obtain ⟨log2phy, hpad, hdim0, hdim1, hcell⟩ := exists_padNestedArray rows h.layers_pos h.num_pos
  refine ⟨log2phy, rows, ?_, ⟨hdim0, hdim1⟩, fun r hr => ⟨fun l hl => ⟨hrows r l, funext (hcell r hr l hl).2⟩, ?_⟩⟩
  · have hlists : (List.range phy2log.rows).mapM (fun layer => do
        let lists ← candidateLists (phy2log.cell layer) numLogical phy2log.cols
        return (List.range numLogical).map lists) = Except.ok ((List.range numLayers).map fun r =>
          (List.range numLogical).map (replicas (phy2log.cell r) numPhysical)) := by
      rw [h.rows_eq, h.cols_eq]
      refine mapM_eq_ok_map fun r hr => ?_
      rw [candidateLists_eq _ (h.logical r (List.mem_range.mp hr))]
      rfl
    rw [computeLogicalToAllPhysicalMap, hlists, ok_bind]
    rcases moeEpRank with _ | rank
    · exact hpad
    · have hreplaced : ((List.range numLayers).map fun r => (List.range numLogical).map
          (replicas (phy2log.cell r) numPhysical)).mapM (fun lists => lists.mapM (replaceByNearest t rank)) =
          Except.ok ((List.range numLayers).map fun r => (List.range numLogical).map (rows r)) := by
        rw [List.mapM_map]
        refine mapM_eq_ok_map fun r _ => ?_
        show ((List.range numLogical).map (replicas (phy2log.cell r) numPhysical)).mapM _ = _
        rw [List.mapM_map]
        exact mapM_eq_ok_map fun l _ => hrows r l
      have hep := hargs.ep_pos
      have hnodes := hargs.nodes_pos
      show (if args.nnodes = 0 ∨ args.epSize = 0 then _ else _ : Except Error _) = _
      rw [if_neg (by omega), h.cols_eq]
      show ((List.mapM _ _ >>= _) : Except Error _) = _
      rw [hreplaced]
      exact hpad
  · have hlocated : LayerLocated numLogical numPhysical (Set.Iio numPhysical) log2phy.dim2 (phy2log.cell r)
        (fun l k => (rows r l).getD k (-1)) fun l => (rows r l).length := by
      refine layerLocated_of_rows (h.logical r hr) (fun l hl => ?_) (fun l _ => ?_) (fun l _ p hp => ?_)
        fun l hl => (hcell r hr l hl).1
      · rcases hspec r l with heq | ⟨p, -, heq⟩
        · rw [heq]
          exact hne r hr l hl
        · rw [heq]
          exact List.cons_ne_nil _ _
      · rcases hspec r l with heq | ⟨p, -, heq⟩
        · rw [heq]
          exact nodup_replicas l
        · rw [heq]
          exact List.nodup_singleton p
      · rcases hspec r l with heq | ⟨q, hq, heq⟩
        · rwa [← heq]
        · rw [heq] at hp
          rwa [List.mem_singleton.mp hp]
    exact hlocated.congr (fun _ _ => rfl) (fun l hl k _ => (hcell r hr l hl).2 k) fun _ _ => rfl

end Mapping

end MoeSpecialization.Eplb
