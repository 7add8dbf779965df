import MoeSpecialization.Eplb.Replicate

/-!
# Rebalancing the experts

Reference: `rebalance_experts_hierarchical` and `rebalance_experts` in
`sglang/srt/eplb/eplb_algorithms/deepseek.py`.

The groups of a layer are packed to nodes, the experts of a node are replicated on the node, and the
replicas of a node are packed to its GPUs. Three permutations and a numbering of replicas are composed by
gathering and scattering; `exists_hierarchical` keeps their equations. From these the maps of the result
agree with each other (`rebalanceExperts_mapsAgree`), the replicas of an expert stay on the node of its
group, and the loads of the GPUs of a node differ by at most the load of one replica
(`gpu_loads_balanced`).
-/

namespace MoeSpecialization.Eplb

open Py Filling

section Definitions

variable {K : Type} [Zero K] [Add K] [LT K] [DecidableLT K] [NatCast K] [Div K]

/-- `inverse` in `rebalance_experts_hierarchical`. -/
def inverse (T : Torch K) (perm : Mat ℤ) : Except Error (Mat ℤ) :=
  (⟨perm.rows, perm.cols, T.emptyCell⟩ : Mat ℤ).scatter perm (Mat.arange perm.rows perm.cols)

/-- Step 1, pack groups to nodes: `log2mlog`. -/
def packGroupsToNodes (T : Torch K) (weight : Mat K) (numGroups numNodes : ℕ) : Except Error (Mat ℤ) := do
  let groupSize := weight.cols / numGroups
  let groupsPerNode := numGroups / numNodes
  let tokensPerGroup := (← weight.unflatten numGroups groupSize).sumLast
  let (groupPackIndex, groupRankInPack) ← balancedPacking T tokensPerGroup numNodes
  let t : Tensor3 ℤ := ⟨weight.rows, numGroups, groupSize, fun r g j =>
    (groupPackIndex.cell r g * groupsPerNode + groupRankInPack.cell r g) * groupSize + j⟩
  return t.flatten2

/-- Step 3, pack physical experts to GPUs: `phy2pphy`. -/
def packReplicasToGpus (T : Torch K) (tokensPerMlog : Mat K) (phy2mlog : Mat ℤ) (mlogcnt : Mat ℕ)
    (numGpus phyExpertsPerGpu : ℕ) : Except Error (Mat ℤ) := do
  let tokensPerPhy ← (shares tokensPerMlog mlogcnt.cell).gather phy2mlog
  let (packIndex, rankInPack) ← balancedPacking T tokensPerPhy numGpus
  return ⟨packIndex.rows, packIndex.cols, fun r i =>
    packIndex.cell r i * phyExpertsPerGpu + rankInPack.cell r i⟩

/-- `rebalance_experts_hierarchical`. The operands of a division by zero and of a `%` with `None` raise. -/
def rebalanceExpertsHierarchical (T : Torch K) (weight : Mat K) (numPhysicalExperts : ℕ)
    (numGroups : Option ℕ) (numNodes numGpus : ℕ) : Except Error (Mat ℤ × Mat ℤ × Mat ℕ) := do
  let numLayers := weight.rows
  let numLogicalExperts := weight.cols
  let some numGroups := numGroups | throw .typeError
  if numGroups = 0 then throw .zeroDivisionError
  if numLogicalExperts % numGroups ≠ 0 then throw .assertionError
  if numNodes = 0 then throw .zeroDivisionError
  if numGroups % numNodes ≠ 0 then throw .assertionError
  if numGpus % numNodes ≠ 0 then throw .assertionError
  if numGpus = 0 then throw .zeroDivisionError
  if numPhysicalExperts % numGpus ≠ 0 then throw .assertionError
  let log2mlog ← packGroupsToNodes T weight numGroups numNodes
  let mlog2log ← inverse T log2mlog
  -- step 2: construct redundant experts within nodes
  let tokensPerMlog ← (← weight.gather mlog2log).viewCols (numLogicalExperts / numNodes)
  let (phy2mlog, phyrank, mlogcnt) ← replicateExperts T tokensPerMlog (numPhysicalExperts / numNodes)
  let phy2pphy ← packReplicasToGpus T tokensPerMlog phy2mlog mlogcnt (numGpus / numNodes)
    (numPhysicalExperts / numGpus)
  let pphy2phy ← inverse T phy2pphy
  let t ← (← phy2mlog.gather pphy2phy).view3 numLayers numNodes
  let pphy2mlog := Tensor3.flatten2 ⟨t.dim0, t.dim1, t.dim2, fun r ν j =>
    t.cell r ν j + (ν * (numLogicalExperts / numNodes) : ℕ)⟩
  let pphy2log ← mlog2log.gather pphy2mlog
  let pphyrank ← (← phyrank.gather pphy2phy).viewRows numLayers
  let logcnt ← (← mlogcnt.viewRows numLayers).gather log2mlog
  return (pphy2log, pphyrank, logcnt)

/-- `m.max().item()`. -/
def maxItem (m : Mat ℕ) : Except Error ℕ :=
  match m.flatten.max? with
  | none => .error (.runtimeError "max(): Expected reduction dim to be specified for input.numel() == 0.")
  | some v => .ok v

/-- The end of `rebalance_experts`: `log2phy`, from the first `numSlots` physical experts. -/
def scatterLog2phy (phy2log phyrank : Mat ℤ) (logcnt : Mat ℕ) (numSlots : ℕ) : Except Error (Tensor3 ℤ) := do
  let maxlogcnt ← maxItem logcnt
  let full : Mat ℤ := ⟨logcnt.rows, logcnt.cols * maxlogcnt, fun _ _ => -1⟩
  let log2phy ← full.scatter
    ⟨phy2log.rows, phy2log.cols, fun r s => phy2log.cell r s * maxlogcnt + phyrank.cell r s⟩
    (Mat.arange logcnt.rows numSlots)
  log2phy.unflatten logcnt.cols maxlogcnt

/-- `rebalance_experts`. -/
def rebalanceExperts (T : Torch K) (weight : Mat K) (numReplicas : ℕ) (numGroups : Option ℕ)
    (numNodes numGpus : ℕ) (enableHierarchical : Bool) : Except Error (Mat ℤ × Tensor3 ℤ × Mat ℕ) := do
  let (phy2log, phyrank, logcnt) ← if enableHierarchical
    then rebalanceExpertsHierarchical T weight numReplicas numGroups numNodes numGpus
    else rebalanceExpertsHierarchical T weight numReplicas (some 1) 1 numGpus
  let log2phy ← scatterLog2phy phy2log phyrank logcnt numReplicas
  return (phy2log, log2phy, logcnt)

end Definitions

/-! ## The inverse of a permutation -/

section Steps

variable {K : Type} {T : Torch K}

/-- Whatever the empty tensor holds, the scatter overwrites it. -/
theorem exists_inverse (T : Torch K) {perm : Mat ℤ} {rows n : ℕ} {σ : ℕ → ℕ → ℕ}
    (hperm : perm.Is rows n fun r c => (σ r c : ℤ))
    (hσ : ∀ r < rows, Set.BijOn (σ r) (Set.Iio n) (Set.Iio n)) :
    ∃ inv, inverse T perm = .ok inv ∧ ∃ τ : ℕ → ℕ → ℕ, inv.Is rows n (fun r c => (τ r c : ℤ)) ∧
      ∀ r < rows, Set.BijOn (τ r) (Set.Iio n) (Set.Iio n) ∧ (∀ c < n, σ r (τ r c) = c) ∧
        ∀ c < n, τ r (σ r c) = c := by
  have hempty : (⟨perm.rows, perm.cols, T.emptyCell⟩ : Mat ℤ).Is rows n T.emptyCell :=
    ⟨hperm.rows_eq, hperm.cols_eq, fun _ _ _ _ => rfl⟩
  have hsrc : (Mat.arange perm.rows perm.cols).Is rows n fun _ c => ((c : ℕ) : ℤ) := by
    rw [hperm.rows_eq, hperm.cols_eq]
    exact Mat.arange_is rows n
  obtain ⟨inv, hinv, hrows, hcols, hwritten, -⟩ := hempty.scatter hperm
    (fun r hr c hc => (hσ r hr).mapsTo hc) (fun r hr => (hσ r hr).injOn) hsrc
  have hinvOn (r : ℕ) (hr : r < rows) := (hσ r hr).invOn_invFunOn
  have hbij (r : ℕ) (hr : r < rows) := Set.BijOn.symm (hinvOn r hr).symm (hσ r hr)
  refine ⟨inv, hinv, fun r => Function.invFunOn (σ r) (Set.Iio n), ⟨hrows, hcols, fun r hr c hc => ?_⟩,
    fun r hr => ⟨hbij r hr, fun c hc => (hinvOn r hr).2 hc, fun c hc => (hinvOn r hr).1 hc⟩⟩
  have hcell := hwritten r hr _ ((hbij r hr).mapsTo hc)
  rwa [(hinvOn r hr).2 hc] at hcell

variable [Zero K] [Add K] [LT K] [DecidableLT K]

/-- Step 1 permutes the experts of a layer. The experts of a group go to the node of the group. -/
theorem exists_packGroupsToNodes (T : Torch K) {weight : Mat K} {numNodes groupsPerNode groupSize : ℕ}
    (hnodes : 0 < numNodes) (hgroups : 0 < groupsPerNode)
    (hcols : weight.cols = numNodes * (groupsPerNode * groupSize)) :
    ∃ log2mlog, packGroupsToNodes T weight (numNodes * groupsPerNode) numNodes = .ok log2mlog ∧
      ∃ (σ : ℕ → ℕ → ℕ) (node : ℕ → ℕ → ℕ), log2mlog.Is weight.rows weight.cols (fun r c => (σ r c : ℤ)) ∧
        ∀ r < weight.rows, Set.BijOn (σ r) (Set.Iio weight.cols) (Set.Iio weight.cols) ∧
          (∀ g < numNodes * groupsPerNode, node r g < numNodes) ∧
          ∀ l < weight.cols, σ r l / (groupsPerNode * groupSize) = node r (l / groupSize) := by
  have hcols' : numNodes * groupsPerNode * groupSize = weight.cols := by rw [hcols, Nat.mul_assoc]
  have hsize : weight.cols / (numNodes * groupsPerNode) = groupSize := by
    rw [← hcols', Nat.mul_div_cancel_left _ (Nat.mul_pos hnodes hgroups)]
  have hper : numNodes * groupsPerNode / numNodes = groupsPerNode := Nat.mul_div_cancel_left _ hnodes
  obtain ⟨packIndex, rankInPack, hrun, pack, rank, hpack, hrank, hfills⟩ :=
    @balancedPacking_fills K _ _ _ _ (Tensor3.sumLast ⟨weight.rows, numNodes * groupsPerNode, groupSize,
      fun r i j => weight.cell r (position groupSize (i, j))⟩) numNodes groupsPerNode T hnodes rfl
  have hbij (r : ℕ) (hr : r < weight.rows) :
      Set.BijOn (fun g => position groupsPerNode (pack r g, rank r g)) (Set.Iio (numNodes * groupsPerNode))
        (Set.Iio (numNodes * groupsPerNode)) :=
    (bijOn_position numNodes groupsPerNode).comp (hfills r hr)
  refine ⟨_, by
      rw [packGroupsToNodes, hsize, hper, Mat.unflatten, if_pos hcols']
      show (balancedPacking T _ numNodes >>= _) = _
      rw [hrun]
      rfl,
    fun r l => position groupSize (position groupsPerNode (pack r (l / groupSize), rank r (l / groupSize)),
      l % groupSize), pack, ⟨rfl, hcols', fun r hr l hl => ?_⟩, fun r hr => ⟨?_, fun g hg => ?_, fun l hl => ?_⟩⟩
  · have hg : l / groupSize < numNodes * groupsPerNode := div_lt (hcols'.symm ▸ hl)
    show (packIndex.cell r (l / groupSize) * _ + rankInPack.cell r (l / groupSize)) * _ + _ = _
    rw [hpack.cell_eq r hr _ hg, hrank.cell_eq r hr _ hg]
    simp only [position]
    push_cast
    rfl
  · rw [← hcols']
    exact bijOn_blocks (hbij r hr)
  · exact (hfills r hr).bin_lt hg
  · have hg : l / groupSize < numNodes * groupsPerNode := div_lt (hcols'.symm ▸ hl)
    have hmod : l % groupSize < groupSize := mod_lt (hcols'.symm ▸ hl)
    rw [Nat.mul_comm, ← Nat.div_div_eq_div_mul, position_div hmod, position_div ((hfills r hr).place_lt hg)]

/-- Step 3 permutes the replicas of a node, and the position of a replica tells its GPU. -/
theorem exists_packReplicasToGpus [NatCast K] [Div K] (T : Torch K) {tokensPerMlog : Mat K}
    {rows numMlog numGpus perGpu : ℕ} (htokens : tokensPerMlog.Is rows numMlog tokensPerMlog.cell)
    {phy2mlog : Mat ℤ} {log : ℕ → ℕ → ℕ} (hlog : phy2mlog.Is rows (numGpus * perGpu) fun r i => (log r i : ℤ))
    (hlt : ∀ r < rows, ∀ i < numGpus * perGpu, log r i < numMlog) (mlogcnt : Mat ℕ) (hgpus : 0 < numGpus) :
    ∃ phy2pphy, packReplicasToGpus T tokensPerMlog phy2mlog mlogcnt numGpus perGpu = .ok phy2pphy ∧
      ∃ π : ℕ → ℕ → ℕ, phy2pphy.Is rows (numGpus * perGpu) (fun r i => (π r i : ℤ)) ∧
        (∀ r < rows, Set.BijOn (π r) (Set.Iio (numGpus * perGpu)) (Set.Iio (numGpus * perGpu))) ∧
        ∃ tokensPerPhy packIndex rankInPack,
          tokensPerPhy.Is rows (numGpus * perGpu)
            (fun r i => tokensPerMlog.cell r (log r i) / (mlogcnt.cell r (log r i) : K)) ∧
          balancedPacking T tokensPerPhy numGpus = .ok (packIndex, rankInPack) ∧
          ∀ r < rows, ∀ i < numGpus * perGpu, packIndex.cell r i = (π r i / perGpu : ℕ) := by
  have hshares : (shares tokensPerMlog mlogcnt.cell).Is rows numMlog fun r c =>
      tokensPerMlog.cell r c / (mlogcnt.cell r c : K) :=
    ⟨htokens.rows_eq, htokens.cols_eq, fun _ _ _ _ => rfl⟩
  obtain ⟨tokensPerPhy, hgather, htokensPerPhy⟩ := hshares.gather hlog hlt
  obtain ⟨packIndex, rankInPack, hrun, pack, rank, hpack, hrank, hfills⟩ :=
    balancedPacking_fills T hgpus htokensPerPhy.cols_eq
  rw [htokensPerPhy.rows_eq, htokensPerPhy.cols_eq] at hpack hrank hfills
  refine ⟨⟨packIndex.rows, packIndex.cols, fun r i => packIndex.cell r i * perGpu + rankInPack.cell r i⟩, ?_,
    fun r i => position perGpu (pack r i, rank r i), ⟨hpack.rows_eq, hpack.cols_eq, fun r hr i hi => ?_⟩,
    fun r hr => ?_, tokensPerPhy, packIndex, rankInPack, htokensPerPhy, hrun, fun r hr i hi => ?_⟩
  · rw [packReplicasToGpus, hgather]
    show (balancedPacking T tokensPerPhy numGpus >>= _) = _
    rw [hrun]
    rfl
  · show packIndex.cell r i * _ + rankInPack.cell r i = _
    rw [hpack.cell_eq r hr i hi, hrank.cell_eq r hr i hi]
    simp only [position]
    push_cast
    rfl
  · exact (bijOn_position numGpus perGpu).comp (hfills r hr)
  · rw [hpack.cell_eq r hr i hi, position_div ((hfills r hr).place_lt hi)]

end Steps

/-! ## The composition -/

/-- The maps that the three steps leave. A row `position numNodes (r, ν)` of the last five is node `ν` of
the layer `r`. -/
structure NodeMaps (rows numNodes numMlog numPhy : ℕ) where
  log2mlog : ℕ → ℕ → ℕ
  mlog2log : ℕ → ℕ → ℕ
  phy2mlog : ℕ → ℕ → ℕ
  phyrank : ℕ → ℕ → ℕ
  mlogcnt : ℕ → ℕ → ℕ
  phy2pphy : ℕ → ℕ → ℕ
  pphy2phy : ℕ → ℕ → ℕ
  log2mlog_lt : ∀ r < rows, ∀ l < numNodes * numMlog, log2mlog r l < numNodes * numMlog
  mlog2log_bijOn : ∀ r < rows,
    Set.BijOn (mlog2log r) (Set.Iio (numNodes * numMlog)) (Set.Iio (numNodes * numMlog))
  log2mlog_mlog2log : ∀ r < rows, ∀ p < numNodes * numMlog, log2mlog r (mlog2log r p) = p
  fills : ∀ ρ < rows * numNodes,
    Fills (Set.Iio numPhy) (fun i => (phy2mlog ρ i, phyrank ρ i)) numMlog (mlogcnt ρ)
  mlogcnt_pos : ∀ ρ < rows * numNodes, ∀ p < numMlog, 0 < mlogcnt ρ p
  pphy2phy_bijOn : ∀ ρ < rows * numNodes, Set.BijOn (pphy2phy ρ) (Set.Iio numPhy) (Set.Iio numPhy)
  phy2pphy_pphy2phy : ∀ ρ < rows * numNodes, ∀ j < numPhy, phy2pphy ρ (pphy2phy ρ j) = j

namespace NodeMaps

variable {rows numNodes numMlog numPhy : ℕ} (m : NodeMaps rows numNodes numMlog numPhy)

/-- The row of the node that a physical expert of the result is on. -/
def node (_m : NodeMaps rows numNodes numMlog numPhy) (r s : ℕ) : ℕ := position numNodes (r, s / numPhy)

/-- The expert before it was packed to a GPU. -/
def phy (r s : ℕ) : ℕ := m.pphy2phy (m.node r s) (s % numPhy)

/-- `pphy2mlog`. -/
def mlog (r s : ℕ) : ℕ := position numMlog (s / numPhy, m.phy2mlog (m.node r s) (m.phy r s))

/-- `pphy2log`. -/
def log (r s : ℕ) : ℕ := m.mlog2log r (m.mlog r s)

/-- `pphyrank`. -/
def rank (r s : ℕ) : ℕ := m.phyrank (m.node r s) (m.phy r s)

/-- `logcnt`. -/
def count (r l : ℕ) : ℕ := m.mlogcnt (position numNodes (r, m.log2mlog r l / numMlog)) (m.log2mlog r l % numMlog)

variable {m} {r : ℕ}

theorem node_lt (hr : r < rows) {s : ℕ} (hs : s < numNodes * numPhy) : m.node r s < rows * numNodes :=
  position_lt hr (div_lt hs)

theorem phy_lt (hr : r < rows) {s : ℕ} (hs : s < numNodes * numPhy) : m.phy r s < numPhy :=
  (m.pphy2phy_bijOn _ (node_lt hr hs)).mapsTo (mod_lt hs)

theorem phy2mlog_lt (hr : r < rows) {s : ℕ} (hs : s < numNodes * numPhy) :
    m.phy2mlog (m.node r s) (m.phy r s) < numMlog :=
  (m.fills _ (node_lt hr hs)).bin_lt (phy_lt hr hs)

theorem mlog_lt (hr : r < rows) {s : ℕ} (hs : s < numNodes * numPhy) : m.mlog r s < numNodes * numMlog :=
  position_lt (div_lt hs) (phy2mlog_lt hr hs)

theorem log_lt (hr : r < rows) {s : ℕ} (hs : s < numNodes * numPhy) : m.log r s < numNodes * numMlog :=
  (m.mlog2log_bijOn r hr).mapsTo (mlog_lt hr hs)

theorem log2mlog_log (hr : r < rows) {s : ℕ} (hs : s < numNodes * numPhy) :
    m.log2mlog r (m.log r s) = m.mlog r s :=
  m.log2mlog_mlog2log r hr _ (mlog_lt hr hs)

/-- The node of a logical expert. -/
theorem log2mlog_log_div (hr : r < rows) {s : ℕ} (hs : s < numNodes * numPhy) :
    m.log2mlog r (m.log r s) / numMlog = s / numPhy := by
  rw [log2mlog_log hr hs, mlog, position_div (phy2mlog_lt hr hs)]

/-- The count of an expert is that of its replicas on the node. -/
theorem count_log (hr : r < rows) {s : ℕ} (hs : s < numNodes * numPhy) :
    m.count r (m.log r s) = m.mlogcnt (m.node r s) (m.phy2mlog (m.node r s) (m.phy r s)) := by
  rw [count, log2mlog_log_div hr hs, log2mlog_log hr hs, mlog, position_mod (phy2mlog_lt hr hs)]
  rfl

theorem count_pos (hr : r < rows) {l : ℕ} (hl : l < numNodes * numMlog) : 0 < m.count r l := by
  have hlt := m.log2mlog_lt r hr l hl
  exact m.mlogcnt_pos _ (position_lt hr (div_lt hlt)) _ (mod_lt hlt)

/-- The physical experts of a layer are the replicas of its logical ones. -/
theorem fills_log (hr : r < rows) :
    Fills (Set.Iio (numNodes * numPhy)) (fun s => (m.log r s, m.rank r s)) (numNodes * numMlog)
      (m.count r) := by
  have hnode : ∀ ν < numNodes, Fills (Set.Iio numPhy)
      ((fun i => (m.phy2mlog (position numNodes (r, ν)) i, m.phyrank (position numNodes (r, ν)) i)) ∘
        m.pphy2phy (position numNodes (r, ν))) numMlog (m.mlogcnt (position numNodes (r, ν))) := by
    intro ν hν
    have hρ : position numNodes (r, ν) < rows * numNodes := position_lt hr hν
    exact (m.fills _ hρ).comp (m.pphy2phy_bijOn _ hρ)
  refine (Fills.glue hnode).relabel (m.mlog2log_bijOn r hr) fun p hp => ?_
  rw [count, m.log2mlog_mlog2log r hr p hp]

end NodeMaps

section Hierarchical

variable {K : Type} [Zero K] [Add K] [LT K] [DecidableLT K] [NatCast K] [Div K]
variable {weight : Mat K} {numNodes groupsPerNode groupSize gpusPerNode perGpu : ℕ}

/-- The call returns the composition of maps, and these come from the packings. -/
theorem exists_hierarchical (T : Torch K) (hrows : 0 < weight.rows) (hnodes : 0 < numNodes)
    (hgroups : 0 < groupsPerNode) (hsize : 0 < groupSize) (hgpus : 0 < gpusPerNode)
    (hcols : weight.cols = numNodes * (groupsPerNode * groupSize))
    (hle : groupsPerNode * groupSize ≤ gpusPerNode * perGpu) :
    ∃ pphy2log pphyrank logcnt,
      rebalanceExpertsHierarchical T weight (numNodes * (gpusPerNode * perGpu))
        (some (numNodes * groupsPerNode)) numNodes (numNodes * gpusPerNode) =
          .ok (pphy2log, pphyrank, logcnt) ∧
      ∃ m : NodeMaps weight.rows numNodes (groupsPerNode * groupSize) (gpusPerNode * perGpu),
        pphy2log.Is weight.rows (numNodes * (gpusPerNode * perGpu)) (fun r s => (m.log r s : ℤ)) ∧
        pphyrank.Is weight.rows (numNodes * (gpusPerNode * perGpu)) (fun r s => (m.rank r s : ℤ)) ∧
        logcnt.Is weight.rows weight.cols m.count ∧
        (∃ node : ℕ → ℕ → ℕ, ∀ r < weight.rows, (∀ g < numNodes * groupsPerNode, node r g < numNodes) ∧
          ∀ l < weight.cols, m.log2mlog r l / (groupsPerNode * groupSize) = node r (l / groupSize)) ∧
        ∃ tokensPerPhy packIndex rankInPack,
          tokensPerPhy.Is (weight.rows * numNodes) (gpusPerNode * perGpu) (fun ρ i =>
            weight.cell (ρ / numNodes) (m.mlog2log (ρ / numNodes)
              (position (groupsPerNode * groupSize) (ρ % numNodes, m.phy2mlog ρ i))) /
                (m.mlogcnt ρ (m.phy2mlog ρ i) : K)) ∧
          balancedPacking T tokensPerPhy gpusPerNode = .ok (packIndex, rankInPack) ∧
          ∀ ρ < weight.rows * numNodes, ∀ i < gpusPerNode * perGpu,
            packIndex.cell ρ i = (m.phy2pphy ρ i / perGpu : ℕ) := by
  have hmlog : 0 < groupsPerNode * groupSize := Nat.mul_pos hgroups hsize
  have hweight : weight.Is weight.rows (numNodes * (groupsPerNode * groupSize)) weight.cell :=
    ⟨rfl, hcols, fun _ _ _ _ => rfl⟩
  obtain ⟨log2mlog, hlog2mlog, σ, node, hσ, hσs⟩ := exists_packGroupsToNodes T hnodes hgroups hcols
  rw [hcols] at hσ hσs
  obtain ⟨mlog2log, hmlog2log, τ, hτ, hτs⟩ := exists_inverse T hσ fun r hr => (hσs r hr).1
  obtain ⟨gathered, hgathered, hgatheredIs⟩ := hweight.gather hτ fun r hr c hc => (hτs r hr).1.mapsTo hc
  obtain ⟨tokensPerMlog, htokens, htokensIs⟩ := hgatheredIs.viewCols hmlog
  have htokensCols : 0 < tokensPerMlog.cols := by rwa [htokensIs.cols_eq]
  have htokensLe : tokensPerMlog.cols ≤ gpusPerNode * perGpu := by rwa [htokensIs.cols_eq]
  obtain ⟨phy2mlog, phyrank, mlogcnt, hreplicate, log, rk, cnt, hlog, hrk, hcnt, hfills⟩ :=
    replicateExperts_fills T htokensCols htokensLe
  rw [htokensIs.rows_eq] at hlog hrk hcnt hfills
  rw [htokensIs.cols_eq] at hcnt hfills
  obtain ⟨phy2pphy, hpack, π, hπ, hπs, tokensPerPhy, packIndex, rankInPack, hphyIs, hphyRun, hphyIndex⟩ :=
    exists_packReplicasToGpus T ⟨htokensIs.rows_eq, htokensIs.cols_eq, fun _ _ _ _ => rfl⟩ hlog
      (fun r hr i hi => (hfills r hr).1.bin_lt hi) mlogcnt hgpus
  obtain ⟨pphy2phy, hpphy2phy, κ, hκ, hκs⟩ := exists_inverse T hπ hπs
  let m : NodeMaps weight.rows numNodes (groupsPerNode * groupSize) (gpusPerNode * perGpu) :=
    { log2mlog := σ, mlog2log := τ, phy2mlog := log, phyrank := rk, mlogcnt := cnt, phy2pphy := π,
      pphy2phy := κ
      log2mlog_lt := fun r hr l hl => (hσs r hr).1.mapsTo hl
      mlog2log_bijOn := fun r hr => (hτs r hr).1
      log2mlog_mlog2log := fun r hr => (hτs r hr).2.1
      fills := fun ρ hρ => (hfills ρ hρ).1
      mlogcnt_pos := fun ρ hρ => (hfills ρ hρ).2
      pphy2phy_bijOn := fun ρ hρ => (hκs ρ hρ).1
      phy2pphy_pphy2phy := fun ρ hρ => (hκs ρ hρ).2.1 }
  obtain ⟨gmlog, hgmlog, hgmlogIs⟩ := hlog.gather hκ fun r hr c hc => (hκs r hr).1.mapsTo hc
  obtain ⟨t, ht, ht0, ht1, ht2, htcell⟩ := hgmlogIs.view3 (Nat.mul_pos hrows hnodes)
  have hdivL : weight.cols / numNodes = groupsPerNode * groupSize := by
    rw [hcols, Nat.mul_div_cancel_left _ hnodes]
  have hpphy2mlog : (Tensor3.flatten2 ⟨t.dim0, t.dim1, t.dim2, fun r ν j =>
      t.cell r ν j + (ν * (weight.cols / numNodes) : ℕ)⟩).Is weight.rows
        (numNodes * (gpusPerNode * perGpu)) fun r s => (m.mlog r s : ℤ) := by
    refine ⟨ht0, by rw [← ht1, ← ht2]; rfl, fun r hr s hs => ?_⟩
    show t.cell r (s / t.dim2) (s % t.dim2) + _ = _
    rw [ht2, htcell r hr _ (div_lt hs) _ (mod_lt hs), hdivL, ← Int.natCast_add]
    exact congrArg Nat.cast (Nat.add_comm _ _)
  rw [hdivL] at hpphy2mlog
  obtain ⟨pphy2log, hpphy2log, hpphy2logIs⟩ := hτ.gather hpphy2mlog fun r hr s hs => NodeMaps.mlog_lt hr hs
  obtain ⟨grank, hgrank, hgrankIs⟩ := hrk.gather hκ fun r hr c hc => (hκs r hr).1.mapsTo hc
  obtain ⟨pphyrank, hpphyrank, hpphyrankIs⟩ := hgrankIs.viewRows hrows
  obtain ⟨cntRows, hcntRows, hcntRowsIs⟩ := hcnt.viewRows hrows
  obtain ⟨logcnt, hlogcnt, hlogcntIs⟩ := hcntRowsIs.gather hσ fun r hr l hl => m.log2mlog_lt r hr l hl
  refine ⟨pphy2log, pphyrank, logcnt, ?_, m, hpphy2logIs, hpphyrankIs, ?_, ⟨node, fun r hr => ?_⟩,
    tokensPerPhy, packIndex, rankInPack, ?_, hphyRun, hphyIndex⟩
  · have hdivG : numNodes * (gpusPerNode * perGpu) / (numNodes * gpusPerNode) = perGpu := by
      rw [← Nat.mul_assoc, Nat.mul_div_cancel_left _ (Nat.mul_pos hnodes hgpus)]
    have hdivP : numNodes * (gpusPerNode * perGpu) / numNodes = gpusPerNode * perGpu :=
      Nat.mul_div_cancel_left _ hnodes
    have hdivGpus : numNodes * gpusPerNode / numNodes = gpusPerNode := Nat.mul_div_cancel_left _ hnodes
    have hmodG : weight.cols % (numNodes * groupsPerNode) = 0 := by
      rw [hcols, ← Nat.mul_assoc, Nat.mul_mod_right]
    have hmodP : numNodes * (gpusPerNode * perGpu) % (numNodes * gpusPerNode) = 0 := by
      rw [← Nat.mul_assoc, Nat.mul_mod_right]
    rw [rebalanceExpertsHierarchical]
    simp only [(Nat.mul_pos hnodes hgroups).ne', (Nat.mul_pos hnodes hgpus).ne', hnodes.ne', hmodG, hmodP,
      Nat.mul_mod_right, hdivL, hdivG, hdivP, hdivGpus, hlog2mlog, hmlog2log, hgathered, htokens, hreplicate,
      hpack, hpphy2phy, hgmlog, ht, hgrank, hpphyrank, hcntRows, hlogcnt, hpphy2log, ok_bind, if_false,
      ne_eq, not_true_eq_false]
    rfl
  · rw [hcols]
    exact hlogcntIs
  · rw [hcols]
    exact (hσs r hr).2
  · refine ⟨hphyIs.rows_eq, hphyIs.cols_eq, fun ρ hρ i hi => ?_⟩
    have hlt := (hfills ρ hρ).1.bin_lt hi
    rw [hphyIs.cell_eq ρ hρ i hi, htokensIs.cell_eq ρ hρ _ hlt, hcnt.cell_eq ρ hρ _ hlt]

end Hierarchical

/-! ## The maps of the result -/

/-- The three maps of a layer describe one placement of the experts on the physical experts `live`:
`log2phy l` lists those of `l`, each once, in its first `logcnt l` places, and `-1` behind them. -/
structure MapsAgree (numLogical : ℕ) (live : Set ℕ) (width : ℕ) (phy2log : ℕ → ℤ) (log2phy : ℕ → ℕ → ℤ)
    (logcnt : ℕ → ℕ) : Prop where
  logical : ∀ s ∈ live, 0 ≤ phy2log s ∧ phy2log s < numLogical
  logcnt_pos : ∀ l < numLogical, 0 < logcnt l
  logcnt_le : ∀ l < numLogical, logcnt l ≤ width
  slot : ∀ l < numLogical, ∀ k < logcnt l, ∃ s ∈ live, log2phy l k = s ∧ phy2log s = l
  listed : ∀ s ∈ live, ∀ l < numLogical, phy2log s = l → ∃! k, k < logcnt l ∧ log2phy l k = s
  pad : ∀ l < numLogical, ∀ k < width, logcnt l ≤ k → log2phy l k = -1

/-- Other numbers for the physical experts. -/
theorem MapsAgree.relabel {numLogical width : ℕ} {live live' : Set ℕ} {phy2log phy2log' : ℕ → ℤ}
    {log2phy log2phy' : ℕ → ℕ → ℤ} {logcnt : ℕ → ℕ}
    (h : MapsAgree numLogical live width phy2log log2phy logcnt) {σ : ℕ → ℕ} (hσ : Set.BijOn σ live live')
    (hphy : ∀ s ∈ live, phy2log' (σ s) = phy2log s)
    (hlog : ∀ l < numLogical, ∀ k < width, ∀ s ∈ live, log2phy l k = s → log2phy' l k = σ s)
    (hpad : ∀ l < numLogical, ∀ k < width, log2phy l k = -1 → log2phy' l k = -1) :
    MapsAgree numLogical live' width phy2log' log2phy' logcnt := by
  have hsame (l : ℕ) (hl : l < numLogical) (k : ℕ) (hk : k < logcnt l) :
      ∃ s ∈ live, phy2log s = l ∧ log2phy l k = s ∧ log2phy' l k = σ s := by
    obtain ⟨s, hs, hval, hsl⟩ := h.slot l hl k hk
    exact ⟨s, hs, hsl, hval, hlog l hl k (lt_of_lt_of_le hk (h.logcnt_le l hl)) s hs hval⟩
  refine ⟨fun s hs => ?_, h.logcnt_pos, h.logcnt_le, fun l hl k hk => ?_, fun s hs l hl hsl => ?_,
    fun l hl k hk hlk => hpad l hl k hk (h.pad l hl k hk hlk)⟩
  · obtain ⟨t, ht, rfl⟩ := hσ.surjOn hs
    rw [hphy t ht]
    exact h.logical t ht
  · obtain ⟨s, hs, hsl, -, hval⟩ := hsame l hl k hk
    exact ⟨σ s, hσ.mapsTo hs, hval, by rw [hphy s hs, hsl]⟩
  · obtain ⟨t, ht, rfl⟩ := hσ.surjOn hs
    rw [hphy t ht] at hsl
    obtain ⟨k, ⟨hk, hval⟩, hunique⟩ := h.listed t ht l hl hsl
    refine ⟨k, ⟨hk, hlog l hl k (lt_of_lt_of_le hk (h.logcnt_le l hl)) t ht hval⟩, fun j hj => ?_⟩
    obtain ⟨u, hu, -, hjval, hjval'⟩ := hsame l hl j hj.1
    have hut : u = t := hσ.injOn hu ht (Int.natCast_inj.mp (hjval'.symm.trans hj.2))
    exact hunique j ⟨hj.1, by rw [hjval, hut]⟩

/-- The maps of a numbering of the replicas. -/
theorem mapsAgree_of_fills {numLogical width : ℕ} {live : Set ℕ} {log rk cnt : ℕ → ℕ} {phy2log : ℕ → ℤ}
    {log2phy : ℕ → ℕ → ℤ} {logcnt : ℕ → ℕ} (hfills : Fills live (fun s => (log s, rk s)) numLogical cnt)
    (hphy : ∀ s ∈ live, phy2log s = log s) (hcnt : ∀ l < numLogical, logcnt l = cnt l)
    (hpos : ∀ l < numLogical, 0 < cnt l) (hle : ∀ l < numLogical, cnt l ≤ width)
    (hwritten : ∀ s ∈ live, log2phy (log s) (rk s) = s)
    (hpad : ∀ l < numLogical, ∀ k < width, cnt l ≤ k → log2phy l k = -1) :
    MapsAgree numLogical live width phy2log log2phy logcnt := by
  have hslot (l : ℕ) (hl : l < numLogical) (k : ℕ) (hk : k < cnt l) :
      ∃ s ∈ live, (log s, rk s) = (l, k) ∧ log2phy l k = s := by
    obtain ⟨s, hs, hsl⟩ := hfills.surjOn
      (show (l, k) ∈ {x : ℕ × ℕ | x.1 < numLogical ∧ x.2 < cnt x.1} from ⟨hl, hk⟩)
    refine ⟨s, hs, hsl, ?_⟩
    rw [← (Prod.mk.inj hsl).1, ← (Prod.mk.inj hsl).2]
    exact hwritten s hs
  refine ⟨fun s hs => ?_, fun l hl => ?_, fun l hl => ?_, fun l hl k hk => ?_, fun s hs l hl hsl => ?_,
    fun l hl k hk hlk => ?_⟩
  · rw [hphy s hs]
    exact ⟨Int.natCast_nonneg _, Int.ofNat_lt.mpr (hfills.bin_lt hs)⟩
  · rw [hcnt l hl]
    exact hpos l hl
  · rw [hcnt l hl]
    exact hle l hl
  · rw [hcnt l hl] at hk
    obtain ⟨s, hs, hsl, hval⟩ := hslot l hl k hk
    refine ⟨s, hs, hval, ?_⟩
    rw [hphy s hs, (Prod.mk.inj hsl).1]
  · rw [hphy s hs, Int.natCast_inj] at hsl
    rw [hcnt l hl, ← hsl]
    refine ⟨rk s, ⟨hfills.place_lt hs, hwritten s hs⟩, fun k hk => ?_⟩
    obtain ⟨t, ht, htl, hval⟩ := hslot _ (hfills.bin_lt hs) k hk.1
    have hts : t = s := Int.natCast_inj.mp (hval.symm.trans hk.2)
    rw [← (Prod.mk.inj htl).2, hts]
  · rw [hcnt l hl] at hlk
    exact hpad l hl k hk hlk

theorem exists_maxItem {m : Mat ℕ} (hrows : 0 < m.rows) (hcols : 0 < m.cols) :
    ∃ v, maxItem m = .ok v ∧ ∀ r < m.rows, ∀ c < m.cols, m.cell r c ≤ v := by
  have hmem {r c : ℕ} (hr : r < m.rows) (hc : c < m.cols) : m.cell r c ∈ m.flatten :=
    List.mem_flatMap.mpr ⟨r, List.mem_range.mpr hr, List.mem_map.mpr ⟨c, List.mem_range.mpr hc, rfl⟩⟩
  rcases hmax : m.flatten.max? with _ | v
  · have hfirst := hmem hrows hcols
    rw [List.max?_eq_none_iff.mp hmax] at hfirst
    cases hfirst
  · refine ⟨v, by rw [maxItem, hmax], fun r hr c hc => ?_⟩
    exact (List.max?_eq_some_iff.mp hmax).2 _ (hmem hr hc)

/-- A numbering of the replicas, scattered, gives maps that agree. -/
theorem exists_scatterLog2phy {phy2log phyrank : Mat ℤ} {logcnt : Mat ℕ} {rows numLog numPhy : ℕ}
    {log rk cnt : ℕ → ℕ → ℕ} (hrows : 0 < rows) (hnumLog : 0 < numLog)
    (hlog : phy2log.Is rows numPhy fun r s => (log r s : ℤ))
    (hrk : phyrank.Is rows numPhy fun r s => (rk r s : ℤ)) (hcnt : logcnt.Is rows numLog cnt)
    (hfills : ∀ r < rows, Fills (Set.Iio numPhy) (fun s => (log r s, rk r s)) numLog (cnt r))
    (hpos : ∀ r < rows, ∀ l < numLog, 0 < cnt r l) :
    ∃ log2phy, scatterLog2phy phy2log phyrank logcnt numPhy = .ok log2phy ∧ log2phy.dim0 = rows ∧
      log2phy.dim1 = numLog ∧ ∀ r < rows,
        MapsAgree numLog (Set.Iio numPhy) log2phy.dim2 (phy2log.cell r) (log2phy.cell r) (logcnt.cell r) := by
  obtain ⟨width, hwidth, hle⟩ := exists_maxItem (m := logcnt) (by rwa [hcnt.rows_eq]) (by rwa [hcnt.cols_eq])
  have hle' (r : ℕ) (hr : r < rows) (l : ℕ) (hl : l < numLog) : cnt r l ≤ width := by
    rw [← hcnt.cell_eq r hr l hl]
    exact hle r (by rwa [hcnt.rows_eq]) l (by rwa [hcnt.cols_eq])
  have hplace (r : ℕ) (hr : r < rows) (s : ℕ) (hs : s < numPhy) : log r s < numLog ∧ rk r s < width := by
    have hbin := (hfills r hr).bin_lt hs
    exact ⟨hbin, lt_of_lt_of_le ((hfills r hr).place_lt hs) (hle' r hr _ hbin)⟩
  have hfull : (⟨logcnt.rows, logcnt.cols * width, fun _ _ => -1⟩ : Mat ℤ).Is rows (numLog * width)
      fun _ _ => -1 := ⟨hcnt.rows_eq, by rw [hcnt.cols_eq], fun _ _ _ _ => rfl⟩
  have hindex : (⟨phy2log.rows, phy2log.cols, fun r s => phy2log.cell r s * width + phyrank.cell r s⟩ :
      Mat ℤ).Is rows numPhy fun r s => (position width (log r s, rk r s) : ℤ) := by
    refine ⟨hlog.rows_eq, hlog.cols_eq, fun r hr s hs => ?_⟩
    show phy2log.cell r s * width + phyrank.cell r s = _
    rw [hlog.cell_eq r hr s hs, hrk.cell_eq r hr s hs]
    simp only [position]
    push_cast
    rfl
  have hinj (r : ℕ) (hr : r < rows) :
      Set.InjOn (fun s => position width (log r s, rk r s)) (Set.Iio numPhy) := by
    intro s hs t ht hst
    refine (hfills r hr).injOn hs ht ?_
    exact (bijOn_position numLog width).injOn (hplace r hr s hs) (hplace r hr t ht) hst
  have hsrc : (Mat.arange logcnt.rows numPhy).Is rows numPhy fun _ s => ((s : ℕ) : ℤ) := by
    rw [hcnt.rows_eq]
    exact Mat.arange_is rows numPhy
  obtain ⟨flat, hflat, hflatRows, hflatCols, hwritten, hkept⟩ := hfull.scatter hindex
    (fun r hr s hs => position_lt (hplace r hr s hs).1 (hplace r hr s hs).2) hinj hsrc
  refine ⟨⟨flat.rows, numLog, width, fun r l k => flat.cell r (position width (l, k))⟩, ?_, hflatRows, rfl,
    fun r hr => ?_⟩
  · rw [scatterLog2phy, hwidth, ok_bind]
    simp only [hflat, ok_bind]
    rw [Mat.unflatten, hcnt.cols_eq, hflatCols, if_pos rfl]
  refine mapsAgree_of_fills (hfills r hr) (fun s hs => hlog.cell_eq r hr s hs) (fun l hl => hcnt.cell_eq r hr l hl)
    (hpos r hr) (hle' r hr) (fun s hs => hwritten r hr s hs) fun l hl k hk hlk => ?_
  refine hkept r hr _ (position_lt hl hk) fun s hs heq => ?_
  have hplaces := (bijOn_position numLog width).injOn (hplace r hr s hs)
    (show (l, k) ∈ {x : ℕ × ℕ | x.1 < numLog ∧ x.2 < width} from ⟨hl, hk⟩) heq
  have hls : log r s = l := congrArg Prod.fst hplaces
  have hks : rk r s = k := congrArg Prod.snd hplaces
  have hlt : rk r s < cnt r (log r s) := (hfills r hr).place_lt hs
  rw [hls, hks] at hlt
  omega

/-! ## The policies -/

section Results

variable {K : Type} [Zero K] [Add K] [LT K] [DecidableLT K] [NatCast K] [Div K] {weight : Mat K}

/-- The sizes that `rebalance_experts_hierarchical` asserts to fit. -/
structure Divisible (numLogical numPhysical numGroups numNodes numGpus : ℕ) : Prop where
  logical_pos : 0 < numLogical
  nodes_pos : 0 < numNodes
  gpus_pos : 0 < numGpus
  logical_groups : numLogical % numGroups = 0
  groups_nodes : numGroups % numNodes = 0
  gpus_nodes : numGpus % numNodes = 0
  physical_gpus : numPhysical % numGpus = 0
  logical_le : numLogical ≤ numPhysical

/-- The quotients. -/
theorem Divisible.exists_factors {numLogical numPhysical numGroups numNodes numGpus : ℕ}
    (h : Divisible numLogical numPhysical numGroups numNodes numGpus) :
    ∃ groupsPerNode groupSize gpusPerNode perGpu : ℕ, 0 < groupsPerNode ∧ 0 < groupSize ∧ 0 < gpusPerNode ∧
      numGroups = numNodes * groupsPerNode ∧ numGpus = numNodes * gpusPerNode ∧
      numLogical = numNodes * (groupsPerNode * groupSize) ∧
      numPhysical = numNodes * (gpusPerNode * perGpu) ∧
      groupsPerNode * groupSize ≤ gpusPerNode * perGpu := by
  obtain ⟨groupsPerNode, hgroups⟩ := Nat.dvd_of_mod_eq_zero h.groups_nodes
  obtain ⟨groupSize, hsize⟩ := Nat.dvd_of_mod_eq_zero h.logical_groups
  obtain ⟨gpusPerNode, hgpus⟩ := Nat.dvd_of_mod_eq_zero h.gpus_nodes
  obtain ⟨perGpu, hper⟩ := Nat.dvd_of_mod_eq_zero h.physical_gpus
  have hlogical : numLogical = numNodes * (groupsPerNode * groupSize) := by
    rw [hsize, hgroups, Nat.mul_assoc]
  have hphysical : numPhysical = numNodes * (gpusPerNode * perGpu) := by
    rw [hper, hgpus, Nat.mul_assoc]
  have hpos := h.logical_pos
  rw [hlogical] at hpos
  have hprod := Nat.pos_of_mul_pos_left hpos
  refine ⟨groupsPerNode, groupSize, gpusPerNode, perGpu, Nat.pos_of_mul_pos_right hprod,
    Nat.pos_of_mul_pos_left hprod, ?_, hgroups, hgpus, hlogical, hphysical, ?_⟩
  · have hgpusPos := h.gpus_pos
    rw [hgpus] at hgpusPos
    exact Nat.pos_of_mul_pos_left hgpusPos
  · apply Nat.le_of_mul_le_mul_left _ h.nodes_pos
    rw [← hlogical, ← hphysical]
    exact h.logical_le

variable {numReplicas numNodes numGpus groups nodes : ℕ} {numGroups : Option ℕ} {enableHierarchical : Bool}

/-- The global policy is the hierarchical one with a single group and a single node. -/
theorem rebalanceExperts_eq (T : Torch K) (weight : Mat K)
    (hpolicy : if enableHierarchical then numGroups = some groups ∧ numNodes = nodes
      else groups = 1 ∧ nodes = 1) :
    rebalanceExperts T weight numReplicas numGroups numNodes numGpus enableHierarchical = do
      let (phy2log, phyrank, logcnt) ←
        rebalanceExpertsHierarchical T weight numReplicas (some groups) nodes numGpus
      let log2phy ← scatterLog2phy phy2log phyrank logcnt numReplicas
      return (phy2log, log2phy, logcnt) := by
  rcases enableHierarchical with _ | _
  · obtain ⟨rfl, rfl⟩ := hpolicy
    rfl
  · obtain ⟨rfl, rfl⟩ := hpolicy
    rfl

/-- If the sizes fit, the numbering of the replicas returns and can be scattered. -/
theorem exists_maps (T : Torch K) (hlayers : 0 < weight.rows)
    (h : Divisible weight.cols numReplicas groups nodes numGpus) :
    ∃ phy2log phyrank logcnt log2phy,
      rebalanceExpertsHierarchical T weight numReplicas (some groups) nodes numGpus =
        .ok (phy2log, phyrank, logcnt) ∧
      scatterLog2phy phy2log phyrank logcnt numReplicas = .ok log2phy ∧
      (phy2log.rows = weight.rows ∧ phy2log.cols = numReplicas) ∧
      (log2phy.dim0 = weight.rows ∧ log2phy.dim1 = weight.cols) ∧
      (logcnt.rows = weight.rows ∧ logcnt.cols = weight.cols) ∧
      ∀ r < weight.rows,
        MapsAgree weight.cols (Set.Iio numReplicas) log2phy.dim2 (phy2log.cell r) (log2phy.cell r)
          (logcnt.cell r) ∧
        ∃ node : ℕ → ℕ, (∀ g < groups, node g < nodes) ∧ ∀ s < numReplicas,
          s / (numReplicas / nodes) = node ((phy2log.cell r s).toNat / (weight.cols / groups)) := by
  have hgroupsPos : 0 < groups := by
    apply Nat.pos_of_ne_zero
    rintro rfl
    have hmod := h.logical_groups
    rw [Nat.mod_zero] at hmod
    exact absurd h.logical_pos (by omega)
  obtain ⟨gpn, gs, gpus, per, hgpn, hgs, hgpus, rfl, rfl, hcols, rfl, hle⟩ := h.exists_factors
  obtain ⟨phy2log, phyrank, logcnt, hrun, m, hlog, hrank, hcnt, ⟨node, hnode⟩, -⟩ :=
    exists_hierarchical T hlayers h.nodes_pos hgpn hgs hgpus hcols hle
  have hfills (r : ℕ) (hr : r < weight.rows) :
      Fills (Set.Iio (nodes * (gpus * per))) (fun s => (m.log r s, m.rank r s)) weight.cols (m.count r) := by
    rw [hcols]
    exact NodeMaps.fills_log hr
  obtain ⟨log2phy, hscatter, hdim0, hdim1, hagree⟩ := exists_scatterLog2phy hlayers h.logical_pos hlog hrank
    hcnt hfills fun r hr l hl => NodeMaps.count_pos hr (by rwa [← hcols])
  refine ⟨phy2log, phyrank, logcnt, log2phy, hrun, hscatter, ⟨hlog.rows_eq, hlog.cols_eq⟩, ⟨hdim0, hdim1⟩,
    ⟨hcnt.rows_eq, hcnt.cols_eq⟩, fun r hr => ⟨hagree r hr, node r, (hnode r hr).1, fun s hs => ?_⟩⟩
  have hlt : m.log r s < weight.cols := by
    rw [hcols]
    exact NodeMaps.log_lt hr hs
  have hsize : weight.cols / (nodes * gpn) = gs := by
    rw [hcols, ← Nat.mul_assoc, Nat.mul_div_cancel_left _ hgroupsPos]
  rw [Nat.mul_div_cancel_left _ h.nodes_pos, hlog.cell_eq r hr s hs, Int.toNat_natCast, hsize,
    ← (hnode r hr).2 _ hlt]
  exact (NodeMaps.log2mlog_log_div hr hs).symm

/-- If the sizes fit, the rebalancing returns maps that agree with each other, and the replicas of the
experts of a group are on one node. No comparison of the loads matters for that. -/
theorem rebalanced_maps_agree (T : Torch K) (hlayers : 0 < weight.rows)
    (hpolicy : if enableHierarchical then numGroups = some groups ∧ numNodes = nodes
      else groups = 1 ∧ nodes = 1)
    (h : Divisible weight.cols numReplicas groups nodes numGpus) :
    ∃ phy2log log2phy logcnt,
      rebalanceExperts T weight numReplicas numGroups numNodes numGpus enableHierarchical =
        .ok (phy2log, log2phy, logcnt) ∧
      (phy2log.rows = weight.rows ∧ phy2log.cols = numReplicas) ∧
      (log2phy.dim0 = weight.rows ∧ log2phy.dim1 = weight.cols) ∧
      (logcnt.rows = weight.rows ∧ logcnt.cols = weight.cols) ∧
      ∀ r < weight.rows,
        MapsAgree weight.cols (Set.Iio numReplicas) log2phy.dim2 (phy2log.cell r) (log2phy.cell r)
          (logcnt.cell r) ∧
        ∃ node : ℕ → ℕ, (∀ g < groups, node g < nodes) ∧ ∀ s < numReplicas,
          s / (numReplicas / nodes) = node ((phy2log.cell r s).toNat / (weight.cols / groups)) := by
  obtain ⟨phy2log, phyrank, logcnt, log2phy, hrun, hscatter, hmaps⟩ := exists_maps T hlayers h
  refine ⟨phy2log, log2phy, logcnt, ?_, hmaps⟩
  rw [rebalanceExperts_eq T weight hpolicy, hrun, ok_bind]
  simp only [hscatter, ok_bind]
  rfl

theorem divisible_sample : Divisible sampleWeight.cols 8 2 2 4 := by
  constructor <;> decide

theorem rebalanced_maps_agree_sample : ∃ phy2log log2phy logcnt,
    rebalanceExperts (Torch.exact ℚ) sampleWeight 8 (some 2) 2 4 true = .ok (phy2log, log2phy, logcnt) ∧
      MapsAgree 4 (Set.Iio 8) log2phy.dim2 (phy2log.cell 0) (log2phy.cell 0) (logcnt.cell 0) := by
  have hpolicy : if true then some 2 = some 2 ∧ 2 = 2 else 2 = 1 ∧ 2 = 1 := ⟨rfl, rfl⟩
  obtain ⟨phy2log, log2phy, logcnt, hrun, -, -, -, hagree⟩ :=
    rebalanced_maps_agree (Torch.exact ℚ) Nat.one_pos hpolicy divisible_sample
  exact ⟨phy2log, log2phy, logcnt, hrun, (hagree 0 Nat.one_pos).1⟩

end Results

/-! ## The loads of the GPUs -/

section Loads

variable {K : Type} [Field K]

/-- The load of a GPU whose physical experts carry equal shares of the loads of their logical ones. -/
def gpuLoad (weight : ℕ → K) (phy2log : ℕ → ℤ) (logcnt : ℕ → ℕ) (perGpu gpu : ℕ) : K :=
  ∑ k ∈ Finset.range perGpu, weight (phy2log (position perGpu (gpu, k))).toNat /
    (logcnt (phy2log (position perGpu (gpu, k))).toNat : K)

section Shares

variable {weight : Mat K} {nodes numMlog gpus per : ℕ} (m : NodeMaps weight.rows nodes numMlog (gpus * per))
variable {tokens : Mat K} {r : ℕ}

/-- The load that a physical expert of the result carries is the one that was packed. -/
theorem share_eq
    (htokens : tokens.Is (weight.rows * nodes) (gpus * per) fun ρ i => weight.cell (ρ / nodes)
      (m.mlog2log (ρ / nodes) (position numMlog (ρ % nodes, m.phy2mlog ρ i))) /
        (m.mlogcnt ρ (m.phy2mlog ρ i) : K))
    (hr : r < weight.rows) {s : ℕ} (hs : s < nodes * (gpus * per)) :
    weight.cell r (m.log r s) / (m.count r (m.log r s) : K) = tokens.cell (m.node r s) (m.phy r s) := by
  have hν : s / (gpus * per) < nodes := div_lt hs
  rw [htokens.cell_eq _ (NodeMaps.node_lt hr hs) _ (NodeMaps.phy_lt hr hs), NodeMaps.count_log hr hs]
  have hdiv : m.node r s / nodes = r := position_div hν
  have hmod : m.node r s % nodes = s / (gpus * per) := position_mod hν
  rw [hdiv, hmod]
  rfl

/-- The load of a GPU is the load of its pack. -/
theorem gpuLoad_eq [LinearOrder K]
    (htokens : tokens.Is (weight.rows * nodes) (gpus * per) fun ρ i => weight.cell (ρ / nodes)
      (m.mlog2log (ρ / nodes) (position numMlog (ρ % nodes, m.phy2mlog ρ i))) /
        (m.mlogcnt ρ (m.phy2mlog ρ i) : K))
    {packIndex : Mat ℤ} (hindex : ∀ ρ < weight.rows * nodes, ∀ i < gpus * per,
      packIndex.cell ρ i = (m.phy2pphy ρ i / per : ℕ)) {phy2log : Mat ℤ} {logcnt : Mat ℕ}
    (hlog : phy2log.Is weight.rows (nodes * (gpus * per)) fun r s => (m.log r s : ℤ))
    (hcnt : logcnt.Is weight.rows weight.cols m.count) (hcols : weight.cols = nodes * numMlog)
    (hr : r < weight.rows) {ν a : ℕ} (hν : ν < nodes) (ha : a < gpus) :
    gpuLoad (weight.cell r) (phy2log.cell r) (logcnt.cell r) per (position gpus (ν, a)) =
      packLoad (tokens.cell (position nodes (r, ν))) (packIndex.cell (position nodes (r, ν)))
        (Finset.range (gpus * per)) a := by
  have hρ : position nodes (r, ν) < weight.rows * nodes := position_lt hr hν
  -- the items of the pack in the order of the GPU's slots
  have hpack : packLoad (tokens.cell (position nodes (r, ν))) (packIndex.cell (position nodes (r, ν)))
      (Finset.range (gpus * per)) a = ∑ j ∈ Finset.range (gpus * per),
        if j / per = a then tokens.cell (position nodes (r, ν)) (m.pphy2phy (position nodes (r, ν)) j)
        else 0 := by
    rw [packLoad, sum_bijOn _ (m.pphy2phy_bijOn _ hρ)]
    refine Finset.sum_congr rfl fun j hj => ?_
    have hj := Finset.mem_range.mp hj
    rw [hindex _ hρ _ ((m.pphy2phy_bijOn _ hρ).mapsTo hj), m.phy2pphy_pphy2phy _ hρ j hj]
    simp only [Int.natCast_inj]
  rw [hpack, sum_block _ ha, gpuLoad]
  refine Finset.sum_congr rfl fun k hk => ?_
  have hk := Finset.mem_range.mp hk
  have hpos : position per (position gpus (ν, a), k) = position (gpus * per) (ν, position per (a, k)) := by
    simp only [position]
    ring
  have hin : position per (a, k) < gpus * per := position_lt ha hk
  have hs : position (gpus * per) (ν, position per (a, k)) < nodes * (gpus * per) := position_lt hν hin
  have hlt : m.log r (position (gpus * per) (ν, position per (a, k))) < weight.cols := by
    rw [hcols]
    exact NodeMaps.log_lt hr hs
  rw [hpos, hlog.cell_eq r hr _ hs, Int.toNat_natCast, hcnt.cell_eq r hr _ hlt, share_eq m htokens hr hs,
    NodeMaps.phy, NodeMaps.node, position_div hin, position_mod hin]

end Shares

variable [LinearOrder K] [IsStrictOrderedRing K]
variable {weight : Mat K} {numReplicas numNodes numGpus groups nodes : ℕ} {numGroups : Option ℕ}
  {enableHierarchical : Bool}

/-- For non-negative loads, the loads of two GPUs of a node differ by at most the largest load of a
physical expert of the node. -/
theorem gpu_loads_balanced {T : Torch K} (hT : T.Ordered) (hlayers : 0 < weight.rows)
    (hpolicy : if enableHierarchical then numGroups = some groups ∧ numNodes = nodes
      else groups = 1 ∧ nodes = 1)
    (h : Divisible weight.cols numReplicas groups nodes numGpus)
    (hw : ∀ r < weight.rows, ∀ l < weight.cols, 0 ≤ weight.cell r l) :
    ∃ phy2log log2phy logcnt,
      rebalanceExperts T weight numReplicas numGroups numNodes numGpus enableHierarchical =
        .ok (phy2log, log2phy, logcnt) ∧
      ∀ r < weight.rows, ∀ ν < nodes, ∀ M, 0 ≤ M →
        (∀ s < numReplicas, s / (numReplicas / nodes) = ν →
          weight.cell r (phy2log.cell r s).toNat / (logcnt.cell r (phy2log.cell r s).toNat : K) ≤ M) →
        ∀ a < numGpus, ∀ b < numGpus, a / (numGpus / nodes) = ν → b / (numGpus / nodes) = ν →
          gpuLoad (weight.cell r) (phy2log.cell r) (logcnt.cell r) (numReplicas / numGpus) a ≤
            gpuLoad (weight.cell r) (phy2log.cell r) (logcnt.cell r) (numReplicas / numGpus) b + M := by
  obtain ⟨gpn, gs, gpus, per, hgpn, hgs, hgpus, rfl, rfl, hcols, rfl, hle⟩ := h.exists_factors
  obtain ⟨phy2log, phyrank, logcnt, hrun, m, hlog, hrank, hcnt, -, tokens, packIndex, rankInPack, htokens, hpack,
    hindex⟩ := exists_hierarchical T hlayers h.nodes_pos hgpn hgs hgpus hcols hle
  have hfills (r : ℕ) (hr : r < weight.rows) :
      Fills (Set.Iio (nodes * (gpus * per))) (fun s => (m.log r s, m.rank r s)) weight.cols (m.count r) := by
    rw [hcols]
    exact NodeMaps.fills_log hr
  obtain ⟨log2phy, hscatter, -⟩ := exists_scatterLog2phy hlayers h.logical_pos hlog hrank
    hcnt hfills fun r hr l hl => NodeMaps.count_pos hr (by rwa [← hcols])
  refine ⟨phy2log, log2phy, logcnt, ?_, fun r hr ν hν M hM hshare a ha b hb haν hbν => ?_⟩
  · rw [rebalanceExperts_eq T weight hpolicy, hrun, ok_bind]
    simp only [hscatter, ok_bind]
    rfl
  · have hdivP : nodes * (gpus * per) / (nodes * gpus) = per := by
      rw [← Nat.mul_assoc, Nat.mul_div_cancel_left _ h.gpus_pos]
    have hdivG : nodes * gpus / nodes = gpus := Nat.mul_div_cancel_left _ h.nodes_pos
    have hdivN : nodes * (gpus * per) / nodes = gpus * per := Nat.mul_div_cancel_left _ h.nodes_pos
    rw [hdivG] at haν hbν
    have hρ : position nodes (r, ν) < tokens.rows := by
      rw [htokens.rows_eq]
      exact position_lt hr hν
    have hρ' : position nodes (r, ν) < weight.rows * nodes := position_lt hr hν
    -- the packed loads are shares of the layer's loads
    have htoken (i : ℕ) (hi : i < tokens.cols) : ∃ s < nodes * (gpus * per), s / (gpus * per) = ν ∧
        m.log r s < weight.cols ∧
        tokens.cell (position nodes (r, ν)) i = weight.cell r (m.log r s) / (m.count r (m.log r s) : K) := by
      rw [htokens.cols_eq] at hi
      obtain ⟨j, hj, hji⟩ := (m.pphy2phy_bijOn _ hρ').surjOn hi
      have hj : j < gpus * per := hj
      have hs : position (gpus * per) (ν, j) < nodes * (gpus * per) := position_lt hν hj
      refine ⟨_, hs, position_div hj, ?_, ?_⟩
      · rw [hcols]
        exact NodeMaps.log_lt hr hs
      · rw [share_eq m htokens hr hs, NodeMaps.phy, NodeMaps.node, position_div hj, position_mod hj, hji]
    have hbound : ∀ i < tokens.cols, tokens.cell (position nodes (r, ν)) i ≤ M := by
      intro i hi
      obtain ⟨s, hs, hsν, hlt, heq⟩ := htoken i hi
      have hle := hshare s hs (by rw [hdivN]; exact hsν)
      rwa [hlog.cell_eq r hr s hs, Int.toNat_natCast, hcnt.cell_eq r hr _ hlt, ← heq] at hle
    have hnonneg : ∀ i < tokens.cols, 0 ≤ tokens.cell (position nodes (r, ν)) i := by
      intro i hi
      obtain ⟨s, -, -, hlt, heq⟩ := htoken i hi
      rw [heq]
      exact div_nonneg (hw r hr _ hlt) (Nat.cast_nonneg _)
    have hbal := balancedPacking_loads hT hgpus htokens.cols_eq hpack hρ hnonneg hM hbound (mod_lt ha) (mod_lt hb)
    rw [htokens.cols_eq, ← gpuLoad_eq m htokens hindex hlog hcnt hcols hr hν (mod_lt ha),
      ← gpuLoad_eq m htokens hindex hlog hcnt hcols hr hν (mod_lt hb), ← haν, position_div_mod] at hbal
    rw [haν, ← hbν, position_div_mod] at hbal
    rwa [hdivP]

/-- GPUs `0` and `1` of the first node. -/
theorem gpu_loads_balanced_sample : ∃ phy2log log2phy logcnt,
    rebalanceExperts (Torch.exact ℚ) sampleWeight 8 (some 2) 2 4 true = .ok (phy2log, log2phy, logcnt) ∧
      ∀ M, 0 ≤ M →
        (∀ s < 8, s / 4 = 0 →
          sampleWeight.cell 0 (phy2log.cell 0 s).toNat / (logcnt.cell 0 (phy2log.cell 0 s).toNat : ℚ) ≤ M) →
        gpuLoad (sampleWeight.cell 0) (phy2log.cell 0) (logcnt.cell 0) 2 0 ≤
          gpuLoad (sampleWeight.cell 0) (phy2log.cell 0) (logcnt.cell 0) 2 1 + M := by
  have hpolicy : if true then some 2 = some 2 ∧ 2 = 2 else 2 = 1 ∧ 2 = 1 := ⟨rfl, rfl⟩
  obtain ⟨phy2log, log2phy, logcnt, hrun, hbal⟩ := gpu_loads_balanced (Torch.exact_ordered ℚ) Nat.one_pos
    hpolicy divisible_sample fun r _ l _ => sampleWeight_nonneg r l
  refine ⟨phy2log, log2phy, logcnt, hrun, fun M hM hle => ?_⟩
  exact hbal 0 Nat.one_pos 0 (by decide) M hM hle 0 (by decide) 1 (by decide) rfl rfl

end Loads

end MoeSpecialization.Eplb
