import MoeSpecialization.Eplb.Rebalance

/-!
# Rebalancing by chunks

Reference: `make_redundant_experts_chunkwise`, `prefill_rebalance_experts`, `decode_rebalance_experts` and
`rebalance_experts` in `sglang/srt/eplb/eplb_algorithms/deepseek_vec.py`.

The physical experts come in chunks, and every chunk has its own logical experts. One turn of the loop adds
a replica to every chunk of every layer at once. Afterwards the physical experts of a chunk are dealt to its
GPUs in the order of their loads, forth and back, and the two maps are rewritten by that permutation and its
inverse. For the hierarchical policy the chunks are the nodes, and the groups of experts are packed to them
first.
-/

namespace MoeSpecialization.Eplb

open Py Filling

/-- `argmin(-1)`, of which it is not known which of several minima it returns. -/
structure TorchVec (K : Type) extends Torch K where
  minIndices : Mat K → ℕ → ℕ
  minIndices_lt : ∀ w : Mat K, ∀ r < w.rows, 0 < w.cols → minIndices w r < w.cols

/-- A library that returns the first minimum. -/
def TorchVec.exact (K : Type) [LinearOrder K] : TorchVec K where
  toTorch := Torch.exact K
  minIndices w r := ((List.range w.cols).argmin (w.cell r)).getD 0
  minIndices_lt w r _ hcols := by
    rcases hmin : (List.range w.cols).argmin (w.cell r) with _ | c
    · rwa [Option.getD_none]
    · exact List.mem_range.mp (List.argmin_mem hmin)

/-- The tensors that the loop of `make_redundant_experts_chunkwise` writes. -/
structure ChunkMaps where
  physicalToLogicalMap : ℕ → ℕ → ℤ
  logicalToPhysicalMap : ℕ → ℕ → ℕ → ℤ
  logicalCount : ℕ → ℕ → ℕ

/-- The first physical experts of a chunk are its logical ones. -/
def ChunkMaps.init (empty : ℕ → ℕ → ℤ) (perGroup perChunk : ℕ) : ChunkMaps where
  physicalToLogicalMap l p :=
    if p % perChunk < perGroup then position perGroup (p / perChunk, p % perChunk) else empty l p
  logicalToPhysicalMap _ e k := if k = 0 then position perChunk (e / perGroup, e % perGroup) else -1
  logicalCount _ _ := 1

/-- In every chunk of every layer, the `i`-th redundant physical expert is one of `redundant`. -/
def ChunkMaps.put (m : ChunkMaps) (perGroup perChunk i : ℕ) (redundant : ℕ → ℕ → ℕ) : ChunkMaps where
  physicalToLogicalMap l p :=
    if p % perChunk = perGroup + i then position perGroup (p / perChunk, redundant l (p / perChunk))
    else m.physicalToLogicalMap l p
  logicalToPhysicalMap l e k :=
    if e % perGroup = redundant l (e / perGroup) ∧ k = m.logicalCount l e then
      position perChunk (e / perGroup, perGroup + i)
    else m.logicalToPhysicalMap l e k
  logicalCount l e :=
    if e % perGroup = redundant l (e / perGroup) then m.logicalCount l e + 1 else m.logicalCount l e

/-- The position, in the order of the loads, of the physical expert that is dealt to the offset `q` of its
chunk: the GPUs with odd numbers take theirs backwards. -/
def dealt (numLocalGroups numLocal q : ℕ) : ℕ :=
  position numLocalGroups (q % numLocal,
    if q % numLocal % 2 = 1 then numLocalGroups - 1 - q / numLocal else q / numLocal)

section Definitions

variable {K : Type} [Zero K] [Add K] [Mul K] [NatCast K] [Div K]

/-- `tokens_per_expert_all_diff / logical_count` of a step, one row for each chunk of each layer. -/
def chunkScores (tokens : Tensor3 K) (logicalCount : ℕ → ℕ → ℕ) (numChunks perGroup step : ℕ) : Mat K :=
  Mat.reshape ⟨tokens.dim1, tokens.dim2, fun l e =>
    (tokens.cell step l e + (e : K) * (((1 : ℕ) : K) / ((10000 : ℕ) : K))) / (logicalCount l e : K)⟩
    (tokens.dim1 * numChunks) perGroup

/-- `tokens_per_expert / (logical_count + 1)` of a step. -/
def chunkScores1 (tokens : Tensor3 K) (logicalCount : ℕ → ℕ → ℕ) (numChunks perGroup step : ℕ) : Mat K :=
  Mat.reshape ⟨tokens.dim1, tokens.dim2, fun l e => tokens.cell step l e / ((logicalCount l e + 1 : ℕ) : K)⟩
    (tokens.dim1 * numChunks) perGroup

/-- `values` of a step: the largest score that a chunk keeps if the expert gets one more replica. -/
def chunkValues (T : Torch K) (tokens : Tensor3 K) (logicalCount : ℕ → ℕ → ℕ)
    (numChunks perGroup step ρ : ℕ) : ℕ → K :=
  let score := chunkScores tokens logicalCount numChunks perGroup step
  let score1 := chunkScores1 tokens logicalCount numChunks perGroup step
  let indices := T.maxIndices score
  let score' : Mat K := {
    score with
    cell := fun ρ => Function.update (score.cell ρ) (indices ρ) (score1.cell ρ (indices ρ)) }
  Function.update (fun _ => score.cell ρ (indices ρ)) (indices ρ) (score'.cell ρ (T.maxIndices score' ρ))

/-- `redundancy_indices`. -/
def redundancyIndices (T : TorchVec K) (tokens : Tensor3 K) (logicalCount : ℕ → ℕ → ℕ)
    (numChunks perGroup layer chunk : ℕ) : ℕ :=
  T.minIndices ⟨tokens.dim1 * numChunks, perGroup, fun ρ j =>
    ((List.range tokens.dim0).map fun step =>
      chunkValues T.toTorch tokens logicalCount numChunks perGroup step ρ j).sum⟩
    (position numChunks (layer, chunk))

/-- One turn of the loop. The maximum over no experts raises. -/
def chunkStep (T : TorchVec K) (tokens : Tensor3 K) (numChunks perGroup perChunk : ℕ) (m : ChunkMaps)
    (i : ℕ) : Except Error ChunkMaps :=
  if perGroup = 0 then .error .indexError
  else .ok (m.put perGroup perChunk i (redundancyIndices T tokens m.logicalCount numChunks perGroup))

/-- Load-balancing between GPUs. -/
def dealToGpus (T : Torch K) (tokens : Tensor3 K) (numChunks perChunk numLocal : ℕ) (phy2log : Mat ℤ)
    (log2phy : Tensor3 ℤ) (logcnt : Mat ℕ) : Except Error (Mat ℤ × Tensor3 ℤ) := do
  let counts ← logcnt.gather phy2log
  let loads ← tokens.sumFirst.gather phy2log
  let score : Mat K := ⟨loads.rows, loads.cols, fun l p => loads.cell l p / (counts.cell l p : K)⟩
  let order := T.sortIndices (score.reshape (tokens.dim1 * numChunks) perChunk)
  if perChunk % numLocal ≠ 0 then throw .assertionError
  let indices : Mat ℤ := ⟨tokens.dim1, phy2log.cols, fun l p => (position perChunk (p / perChunk,
    (order (position numChunks (l, p / perChunk))).getD
      (dealt (perChunk / numLocal) numLocal (p % perChunk)) 0) : ℕ)⟩
  let phy2log ← phy2log.gather indices
  if tokens.dim1 = 0 then throw (.runtimeError "cannot reshape tensor of 0 elements")
  let masked : Tensor3 ℤ := {
    log2phy with
    cell := fun l e k => if log2phy.cell l e k = -1 then 0 else log2phy.cell l e k }
  let moved ← indices.argsort.gather masked.flatten2
  return (phy2log, {
    log2phy with
    cell := fun l e k =>
      if log2phy.cell l e k = -1 then -1 else moved.cell l (position log2phy.dim2 (e, k)) })

/-- `make_redundant_experts_chunkwise`. With fewer physical experts than logical ones, a negative dimension,
a remainder or a slice that does not fit raises. -/
def makeRedundantExpertsChunkwise (T : TorchVec K) (tokens : Tensor3 K)
    (numPhysical numLocal perChunk : ℕ) : Except Error (Mat ℤ × Tensor3 ℤ × Mat ℕ) := do
  let numLogical := tokens.dim2
  if numPhysical + 1 < numLogical then throw (.runtimeError "negative dimension")
  if perChunk = 0 then throw .zeroDivisionError
  if numPhysical % perChunk ≠ 0 then throw .assertionError
  let numChunks := numPhysical / perChunk
  if numChunks = 0 then throw .zeroDivisionError
  if numLogical % numChunks ≠ 0 then throw .assertionError
  let perGroup := numLogical / numChunks
  if (numPhysical - numLogical : ℤ) % numChunks ≠ 0 then throw .assertionError
  if perChunk < perGroup then throw (.runtimeError "size mismatch")
  let m ← (List.range ((numPhysical - numLogical) / numChunks)).foldlM
    (chunkStep T tokens numChunks perGroup perChunk) (.init T.emptyCell perGroup perChunk)
  let phy2log : Mat ℤ := ⟨tokens.dim1, numPhysical, m.physicalToLogicalMap⟩
  let log2phy : Tensor3 ℤ := ⟨tokens.dim1, numLogical, numPhysical - numLogical + 1, m.logicalToPhysicalMap⟩
  let logcnt : Mat ℕ := ⟨tokens.dim1, numLogical, m.logicalCount⟩
  if 1 < numLocal then
    let (phy2log, log2phy) ← dealToGpus T.toTorch tokens numChunks perChunk numLocal phy2log log2phy logcnt
    return (phy2log, log2phy, logcnt)
  else return (phy2log, log2phy, logcnt)

/-- `decode_rebalance_experts`. -/
def decodeRebalanceExperts (T : TorchVec K) (tokens : Tensor3 K) (numPhysical numLocal : ℕ) :
    Except Error (Mat ℤ × Tensor3 ℤ × Mat ℕ) :=
  makeRedundantExpertsChunkwise T tokens numPhysical numLocal numPhysical

variable [LT K] [DecidableLT K]

/-- `prefill_rebalance_experts`. -/
def prefillRebalanceExperts (T : TorchVec K) (tokens : Tensor3 K) (numPhysical numLocal : ℕ)
    (numGroups : Option ℕ) (numNodes : ℕ) : Except Error (Mat ℤ × Tensor3 ℤ × Mat ℕ) := do
  let some numGroups := numGroups | throw .typeError
  if numGroups = 0 then throw .zeroDivisionError
  if tokens.dim2 % numGroups ≠ 0 then throw .assertionError
  let groupSize := tokens.dim2 / numGroups
  if numNodes = 0 then throw .zeroDivisionError
  if numGroups % numNodes ≠ 0 then throw .assertionError
  let tokensPerGroup := (← tokens.sumFirst.unflatten numGroups groupSize).sumLast
  let groupPerm ← packGroups T.toTorch tokensPerGroup numNodes
  let log2mlog : Mat ℤ := Tensor3.flatten2 ⟨groupPerm.rows, groupPerm.cols, groupSize, fun l g j =>
    groupPerm.cell l g * groupSize + j⟩
  let mlog2log ← inverse T.toTorch log2mlog
  let tokensPerMlog ← (List.range tokens.dim0).mapM fun step =>
    (⟨tokens.dim1, tokens.dim2, tokens.cell step⟩ : Mat K).gather mlog2log
  let (phy2mlog, mlog2phy, mlogcnt) ← makeRedundantExpertsChunkwise T
    ⟨tokens.dim0, tokens.dim1, tokens.dim2, fun step l e =>
      ((tokensPerMlog.getD step ⟨0, 0, fun _ _ => 0⟩).cell l e)⟩
    numPhysical numLocal (numPhysical / numNodes)
  let phy2log ← mlog2log.gather phy2mlog
  -- the other two are read at the expert's number within the nodes
  let log2phy : Tensor3 ℤ := {
    mlog2phy with
    cell := fun l e k => mlog2phy.cell l (log2mlog.cell l e).toNat k }
  let logcnt ← mlogcnt.gather log2mlog
  return (phy2log, log2phy, logcnt)

namespace Vec

/-- `rebalance_experts`. -/
def rebalanceExperts (T : TorchVec K) (tokens : Tensor3 K) (numPhysical numLocal : ℕ)
    (numGroups : Option ℕ) (numNodes : ℕ) (enableHierarchical : Bool) :
    Except Error (Mat ℤ × Tensor3 ℤ × Mat ℕ) :=
  if enableHierarchical then prefillRebalanceExperts T tokens numPhysical numLocal numGroups numNodes
  else decodeRebalanceExperts T tokens numPhysical numLocal

end Vec

end Definitions

/-! ## The replicas of the chunks -/

section Chunks

/-- The first `n` physical experts of a chunk are the replicas that are counted for it, numbered by `f`. -/
structure ChunkMaps.Inv (m : ChunkMaps) (perGroup perChunk n layer chunk : ℕ) (f : ℕ → ℕ × ℕ) : Prop where
  fills : Fills (Set.Iio n) f perGroup fun b => m.logicalCount layer (position perGroup (chunk, b))
  physical : ∀ j < n, m.physicalToLogicalMap layer (position perChunk (chunk, j)) =
    position perGroup (chunk, (f j).1)
  logical : ∀ j < n, m.logicalToPhysicalMap layer (position perGroup (chunk, (f j).1)) (f j).2 =
    position perChunk (chunk, j)
  pad : ∀ b < perGroup, ∀ k, m.logicalCount layer (position perGroup (chunk, b)) ≤ k →
    m.logicalToPhysicalMap layer (position perGroup (chunk, b)) k = -1
  count_pos : ∀ b < perGroup, 0 < m.logicalCount layer (position perGroup (chunk, b))
  count_le : ∀ b < perGroup, m.logicalCount layer (position perGroup (chunk, b)) + perGroup ≤ n + 1

variable {perGroup perChunk layer chunk : ℕ}

theorem ChunkMaps.inv_init (empty : ℕ → ℕ → ℤ) (hle : perGroup ≤ perChunk) :
    (ChunkMaps.init empty perGroup perChunk).Inv perGroup perChunk perGroup layer chunk fun j => (j, 0) where
  fills := fills_ones perGroup
  physical := fun j hj => by
    have hmod : position perChunk (chunk, j) % perChunk = j := position_mod (lt_of_lt_of_le hj hle)
    have hdiv : position perChunk (chunk, j) / perChunk = chunk := position_div (lt_of_lt_of_le hj hle)
    simp only [ChunkMaps.init, hmod, hdiv, if_pos hj]
  logical := fun j hj => by
    have hmod : position perGroup (chunk, j) % perGroup = j := position_mod hj
    have hdiv : position perGroup (chunk, j) / perGroup = chunk := position_div hj
    simp only [ChunkMaps.init, hmod, hdiv, if_true]
  pad := fun b _ k hk => if_neg (Nat.pos_iff_ne_zero.mp hk)
  count_pos := fun _ _ => Nat.one_pos
  count_le := fun _ _ => (Nat.add_comm 1 perGroup).le

theorem ChunkMaps.Inv.put {m : ChunkMaps} {i : ℕ} {f : ℕ → ℕ × ℕ}
    (h : m.Inv perGroup perChunk (perGroup + i) layer chunk f) (hi : perGroup + i < perChunk)
    {redundant : ℕ → ℕ → ℕ} (hlt : redundant layer chunk < perGroup) :
    ∃ f', (m.put perGroup perChunk i redundant).Inv perGroup perChunk (perGroup + i + 1) layer chunk f' := by
  have hmod {b : ℕ} (hb : b < perGroup) : position perGroup (chunk, b) % perGroup = b := position_mod hb
  have hdiv {b : ℕ} (hb : b < perGroup) : position perGroup (chunk, b) / perGroup = chunk := position_div hb
  have hcount {b : ℕ} (hb : b < perGroup) :
      (m.put perGroup perChunk i redundant).logicalCount layer (position perGroup (chunk, b)) =
        if b = redundant layer chunk then m.logicalCount layer (position perGroup (chunk, b)) + 1
        else m.logicalCount layer (position perGroup (chunk, b)) := by
    simp only [ChunkMaps.put, hmod hb, hdiv hb]
  have hset : Set.Iio (perGroup + i + 1) = insert (perGroup + i) (Set.Iio (perGroup + i)) := by
    ext j
    simp only [Set.mem_Iio, Set.mem_insert_iff]
    omega
  have hslot {j : ℕ} (hj : j < perGroup + i + 1) :
      position perChunk (chunk, j) % perChunk = j ∧ position perChunk (chunk, j) / perChunk = chunk :=
    ⟨position_mod (show (chunk, j).2 < perChunk by show j < perChunk; omega),
      position_div (show (chunk, j).2 < perChunk by show j < perChunk; omega)⟩
  let last : ℕ × ℕ :=
    (redundant layer chunk, m.logicalCount layer (position perGroup (chunk, redundant layer chunk)))
  have hold {j : ℕ} (hj : j < perGroup + i) : Function.update f (perGroup + i) last j = f j :=
    Function.update_of_ne (by omega) _ _
  have hnew : Function.update f (perGroup + i) last (perGroup + i) = last := Function.update_self _ _ _
  refine ⟨Function.update f (perGroup + i) last, ?_, fun j hj => ?_, fun j hj => ?_, fun b hb k hk => ?_,
    fun b hb => ?_, fun b hb => ?_⟩
  · rw [hset]
    refine (h.fills.insert (fun hmem => absurd (Set.mem_Iio.mp hmem) (Nat.lt_irrefl _)) hlt).congr
      (Set.eqOn_refl _ _) fun b hb => ?_
    rw [hcount hb]
    split
    · rename_i hb
      rw [hb, Function.update_self]
    · rename_i hb
      rw [Function.update_of_ne hb]
  · simp only [ChunkMaps.put, (hslot hj).1, (hslot hj).2]
    by_cases hlast : j = perGroup + i
    · rw [if_pos hlast, hlast, hnew]
    · have hj : j < perGroup + i := by omega
      rw [if_neg hlast, hold hj]
      exact h.physical j hj
  · by_cases hlast : j = perGroup + i
    · subst hlast
      rw [hnew]
      simp only [ChunkMaps.put, last, hmod hlt, hdiv hlt, and_self, if_true]
    · have hj : j < perGroup + i := by omega
      have hbin : (f j).1 < perGroup := h.fills.bin_lt hj
      have hplace := h.fills.place_lt hj
      rw [hold hj]
      simp only [ChunkMaps.put, hmod hbin, hdiv hbin]
      rw [if_neg]
      · exact h.logical j hj
      · rintro ⟨hbin, heq⟩
        rw [heq] at hplace
        exact absurd hplace (Nat.lt_irrefl _)
  · rw [hcount hb] at hk
    simp only [ChunkMaps.put, hmod hb, hdiv hb]
    split at hk
    · rw [if_neg (by omega)]
      exact h.pad b hb k (by omega)
    · rename_i hb'
      rw [if_neg fun hand => hb' hand.1]
      exact h.pad b hb k hk
  · rw [hcount hb]
    split
    · exact Nat.succ_pos _
    · exact h.count_pos b hb
  · have hle := h.count_le b hb
    rw [hcount hb]
    split
    · omega
    · omega

variable {K : Type} [Zero K] [Add K] [Mul K] [NatCast K] [Div K] (T : TorchVec K) {tokens : Tensor3 K}
  {numChunks : ℕ}

theorem redundancyIndices_lt (logicalCount : ℕ → ℕ → ℕ) (hlayer : layer < tokens.dim1) (hchunk : chunk < numChunks)
    (hpos : 0 < perGroup) : redundancyIndices T tokens logicalCount numChunks perGroup layer chunk < perGroup :=
  T.minIndices_lt _ _ (position_lt hlayer hchunk) hpos

/-- The loop: after `n` turns every chunk of every layer has `n` replicas more. -/
theorem exists_chunkLoop (hpos : 0 < perGroup) (n : ℕ) (hle : perGroup + n ≤ perChunk) :
    ∃ m, (List.range n).foldlM (chunkStep T tokens numChunks perGroup perChunk)
        (.init T.emptyCell perGroup perChunk) = .ok m ∧
      ∀ layer < tokens.dim1, ∀ chunk < numChunks,
        ∃ f, m.Inv perGroup perChunk (perGroup + n) layer chunk f := by
  induction n with
  | zero => exact ⟨_, rfl, fun _ _ _ _ => ⟨_, ChunkMaps.inv_init _ hle⟩⟩
  | succ n ih =>
    obtain ⟨m, hm, hinv⟩ := ih (by omega)
    refine ⟨m.put perGroup perChunk n (redundancyIndices T tokens m.logicalCount numChunks perGroup), ?_,
      fun layer hlayer chunk hchunk => ?_⟩
    · rw [List.range_succ, List.foldlM_append, hm, ok_bind, List.foldlM_cons, chunkStep, if_neg hpos.ne']
      rfl
    · obtain ⟨f, hf⟩ := hinv layer hlayer chunk hchunk
      exact hf.put (by omega) (redundancyIndices_lt T _ hlayer hchunk hpos)

/-- When the chunks are full, their maps agree, and the replicas of an expert are in its chunk. -/
theorem ChunkMaps.mapsAgree {m : ChunkMaps} {width : ℕ}
    (h : ∀ chunk < numChunks, ∃ f, m.Inv perGroup perChunk perChunk layer chunk f)
    (hwidth : ∀ e < numChunks * perGroup, m.logicalCount layer e ≤ width) :
    MapsAgree (numChunks * perGroup) (Set.Iio (numChunks * perChunk)) width (m.physicalToLogicalMap layer)
        (m.logicalToPhysicalMap layer) (m.logicalCount layer) ∧
      ∀ s < numChunks * perChunk, (m.physicalToLogicalMap layer s).toNat / perGroup = s / perChunk := by
  have hchoice : ∃ f : ℕ → ℕ → ℕ × ℕ, ∀ chunk < numChunks, m.Inv perGroup perChunk perChunk layer chunk (f chunk) := by
    choose! f hf using h
    exact ⟨f, hf⟩
  obtain ⟨f, hf⟩ := hchoice
  have hfills := Fills.glue fun chunk hchunk => (hf chunk hchunk).fills
  have hphysical (s : ℕ) (hs : s < numChunks * perChunk) : m.physicalToLogicalMap layer s =
      position perGroup (s / perChunk, (f (s / perChunk) (s % perChunk)).1) := by
    conv_lhs => rw [← position_div_mod perChunk s]
    exact (hf _ (div_lt hs)).physical _ (mod_lt hs)
  refine ⟨mapsAgree_of_fills hfills hphysical (fun e _ => ?_) (fun e he => ?_) (fun e he => ?_) (fun s hs => ?_)
    fun e he k _ hk => ?_, fun s hs => ?_⟩
  · rw [position_div_mod]
  · exact (hf _ (div_lt he)).count_pos _ (mod_lt he)
  · rw [position_div_mod]
    exact hwidth e he
  · conv_rhs => rw [← position_div_mod perChunk s]
    exact (hf _ (div_lt hs)).logical _ (mod_lt hs)
  · conv_lhs => rw [← position_div_mod perGroup e]
    exact (hf _ (div_lt he)).pad _ (mod_lt he) k hk
  · rw [hphysical s hs, Int.toNat_natCast]
    exact position_div ((hf _ (div_lt hs)).fills.bin_lt (mod_lt hs))

end Chunks

/-! ## Dealing to the GPUs -/

section Deal

/-- Forth and back over the GPUs, every physical expert of a chunk is dealt once. -/
theorem bijOn_dealt (groups numLocal : ℕ) :
    Set.BijOn (dealt groups numLocal) (Set.Iio (groups * numLocal)) (Set.Iio (groups * numLocal)) := by
  have hturn : Set.BijOn (fun x : ℕ × ℕ => (x.2, if x.2 % 2 = 1 then groups - 1 - x.1 else x.1))
      {x | x.1 < groups ∧ x.2 < numLocal} {x | x.1 < numLocal ∧ x.2 < groups} := by
    refine ⟨fun x hx => ⟨hx.2, ?_⟩, fun x hx y hy hxy => ?_, fun y hy => ?_⟩
    · have hlt : x.1 < groups := hx.1
      show (if x.2 % 2 = 1 then groups - 1 - x.1 else x.1) < groups
      split
      · omega
      · exact hlt
    · have hx : x.1 < groups := hx.1
      have hy : y.1 < groups := hy.1
      obtain ⟨hsnd, hfst⟩ := Prod.mk.inj hxy
      rw [hsnd] at hfst
      refine Prod.ext ?_ hsnd
      split at hfst
      · omega
      · exact hfst
    · have hlt : y.2 < groups := hy.2
      refine ⟨(if y.1 % 2 = 1 then groups - 1 - y.2 else y.2, y.1), ⟨?_, hy.1⟩, Prod.ext rfl ?_⟩
      · show (if y.1 % 2 = 1 then groups - 1 - y.2 else y.2) < groups
        split
        · omega
        · exact hlt
      · show (if y.1 % 2 = 1 then groups - 1 - (if y.1 % 2 = 1 then groups - 1 - y.2 else y.2)
          else if y.1 % 2 = 1 then groups - 1 - y.2 else y.2) = y.2
        split
        · omega
        · rfl
  have hbij := (bijOn_position numLocal groups).comp (hturn.comp (fills_divMod groups numLocal))
  rwa [Nat.mul_comm numLocal groups] at hbij

variable {K : Type} [Zero K] [Add K] [NatCast K] [Div K] (T : Torch K) {tokens : Tensor3 K}
  {numChunks perChunk numLocal : ℕ} {phy2log : Mat ℤ} {log2phy : Tensor3 ℤ} {logcnt : Mat ℕ}

/-- Dealing gives the physical experts other numbers within their chunks, in both maps. -/
theorem exists_dealToGpus (hlayers : 0 < tokens.dim1) (hchunk : 0 < numChunks * perChunk)
    (hlocal : perChunk % numLocal = 0)
    (hphy : phy2log.rows = tokens.dim1 ∧ phy2log.cols = numChunks * perChunk)
    (hlog : log2phy.dim0 = tokens.dim1 ∧ log2phy.dim1 = tokens.dim2)
    (hcnt : logcnt.rows = tokens.dim1 ∧ logcnt.cols = tokens.dim2)
    (hagree : ∀ r < tokens.dim1, MapsAgree tokens.dim2 (Set.Iio (numChunks * perChunk)) log2phy.dim2
      (phy2log.cell r) (log2phy.cell r) (logcnt.cell r)) :
    ∃ phy2log' log2phy', dealToGpus T tokens numChunks perChunk numLocal phy2log log2phy logcnt =
        .ok (phy2log', log2phy') ∧
      (phy2log'.rows = tokens.dim1 ∧ phy2log'.cols = numChunks * perChunk) ∧
      (log2phy'.dim0 = tokens.dim1 ∧ log2phy'.dim1 = tokens.dim2 ∧ log2phy'.dim2 = log2phy.dim2) ∧
      ∀ r < tokens.dim1, MapsAgree tokens.dim2 (Set.Iio (numChunks * perChunk)) log2phy'.dim2
          (phy2log'.cell r) (log2phy'.cell r) (logcnt.cell r) ∧
        ∀ s < numChunks * perChunk, ∃ s' < numChunks * perChunk, s' / perChunk = s / perChunk ∧
          phy2log'.cell r s = phy2log.cell r s' := by
  have hlogical (r : ℕ) (hr : r < tokens.dim1) (s : ℕ) (hs : s < numChunks * perChunk) :=
    (hagree r hr).logical s hs
  have hindex : phy2log.Is tokens.dim1 (numChunks * perChunk) fun r s => ((phy2log.cell r s).toNat : ℤ) :=
    ⟨hphy.1, hphy.2, fun r hr s hs => (Int.toNat_of_nonneg (hlogical r hr s hs).1).symm⟩
  have hlt (r : ℕ) (hr : r < tokens.dim1) (s : ℕ) (hs : s < numChunks * perChunk) :
      (phy2log.cell r s).toNat < tokens.dim2 := by
    have := hlogical r hr s hs
    omega
  have hcntIs : logcnt.Is tokens.dim1 tokens.dim2 logcnt.cell := ⟨hcnt.1, hcnt.2, fun _ _ _ _ => rfl⟩
  have htokensIs : tokens.sumFirst.Is tokens.dim1 tokens.dim2 tokens.sumFirst.cell :=
    ⟨rfl, rfl, fun _ _ _ _ => rfl⟩
  obtain ⟨counts, hcounts, hcountsIs⟩ := hcntIs.gather hindex hlt
  obtain ⟨loads, hloads, hloadsIs⟩ := htokensIs.gather hindex hlt
  let score : Mat K := ⟨loads.rows, loads.cols, fun l p => loads.cell l p / (counts.cell l p : K)⟩
  let order := T.sortIndices (score.reshape (tokens.dim1 * numChunks) perChunk)
  let old (r s : ℕ) : ℕ := position perChunk (s / perChunk,
    (order (position numChunks (r, s / perChunk))).getD (dealt (perChunk / numLocal) numLocal (s % perChunk)) 0)
  have hfactor : perChunk / numLocal * numLocal = perChunk := Nat.div_mul_cancel (Nat.dvd_of_mod_eq_zero hlocal)
  -- within a chunk, the order of the loads after the dealing
  have hwithin (r : ℕ) (hr : r < tokens.dim1) (ν : ℕ) (hν : ν < numChunks) :
      Set.BijOn (fun q => (order (position numChunks (r, ν))).getD (dealt (perChunk / numLocal) numLocal q) 0)
        (Set.Iio perChunk) (Set.Iio perChunk) := by
    have hsorted := bijOn_getD (T.sortIndices_perm (score.reshape (tokens.dim1 * numChunks) perChunk)
      (position numChunks (r, ν)) (position_lt hr hν))
    have hdealt := bijOn_dealt (perChunk / numLocal) numLocal
    rw [hfactor] at hdealt
    exact hsorted.comp hdealt
  have hold (r : ℕ) (hr : r < tokens.dim1) :
      Set.BijOn (old r) (Set.Iio (numChunks * perChunk)) (Set.Iio (numChunks * perChunk)) :=
    bijOn_glue (hwithin r hr)
  let indices : Mat ℤ := ⟨tokens.dim1, phy2log.cols, fun r s => (old r s : ℕ)⟩
  have hindicesIs : indices.Is tokens.dim1 (numChunks * perChunk) fun r s => (old r s : ℤ) :=
    ⟨rfl, hphy.2, fun _ _ _ _ => rfl⟩
  have hphyIs : phy2log.Is tokens.dim1 (numChunks * perChunk) phy2log.cell :=
    ⟨hphy.1, hphy.2, fun _ _ _ _ => rfl⟩
  obtain ⟨phy2log', hphy', hphyIs'⟩ := hphyIs.gather hindicesIs fun r hr s hs => (hold r hr).mapsTo hs
  obtain ⟨new, hnewIs, hnew⟩ := hindicesIs.argsort hold
  let masked : Tensor3 ℤ := {
    log2phy with
    cell := fun l e k => if log2phy.cell l e k = -1 then 0 else log2phy.cell l e k }
  have hmasked (r : ℕ) (hr : r < tokens.dim1) (e : ℕ) (he : e < tokens.dim2) (k : ℕ) (hk : k < log2phy.dim2) :
      0 ≤ masked.cell r e k ∧ (masked.cell r e k).toNat < numChunks * perChunk := by
    show 0 ≤ (if log2phy.cell r e k = -1 then 0 else log2phy.cell r e k) ∧
      (if log2phy.cell r e k = -1 then 0 else log2phy.cell r e k : ℤ).toNat < numChunks * perChunk
    by_cases hlast : k < logcnt.cell r e
    · obtain ⟨s, hs, hval, -⟩ := (hagree r hr).slot e he k hlast
      rw [hval, if_neg (by omega), Int.toNat_natCast]
      exact ⟨Int.natCast_nonneg s, hs⟩
    · rw [(hagree r hr).pad e he k hk (not_lt.mp hlast), if_pos rfl]
      exact ⟨le_refl 0, hchunk⟩
  have hflatIs : masked.flatten2.Is tokens.dim1 (tokens.dim2 * log2phy.dim2) fun r c =>
      ((masked.cell r (c / log2phy.dim2) (c % log2phy.dim2)).toNat : ℤ) := by
    refine ⟨hlog.1, by rw [← hlog.2]; rfl, fun r hr c hc => ?_⟩
    exact (Int.toNat_of_nonneg (hmasked r hr _ (div_lt hc) _ (mod_lt hc)).1).symm
  obtain ⟨moved, hmoved, hmovedIs⟩ := hnewIs.gather hflatIs fun r hr c hc =>
    (hmasked r hr _ (div_lt hc) _ (mod_lt hc)).2
  refine ⟨phy2log', {
    log2phy with
    cell := fun l e k =>
      if log2phy.cell l e k = -1 then -1 else moved.cell l (position log2phy.dim2 (e, k)) }, ?_,
    ⟨hphyIs'.rows_eq, hphyIs'.cols_eq⟩, ⟨hlog.1, hlog.2, rfl⟩, fun r hr => ⟨?_, fun s hs => ?_⟩⟩
  · rw [dealToGpus, hcounts, ok_bind, hloads, ok_bind, if_neg (not_not.mpr hlocal)]
    show ((phy2log.gather indices >>= _) : Except Error _) = _
    rw [hphy', ok_bind]
    show (if tokens.dim1 = 0 then _ else _ : Except Error _) = _
    rw [if_neg hlayers.ne']
    show ((indices.argsort.gather masked.flatten2 >>= _) : Except Error _) = _
    rw [hmoved]
    rfl
  · refine (hagree r hr).relabel (hnew r hr).1 (fun s hs => ?_) (fun e he k hk s hs hval => ?_)
      fun e _ k _ hpad => if_pos hpad
    · obtain ⟨c, hc, rfl⟩ := (hold r hr).surjOn hs
      rw [(hnew r hr).2 c hc, hphyIs'.cell_eq r hr c hc]
    · have hin : position log2phy.dim2 (e, k) < tokens.dim2 * log2phy.dim2 := position_lt he hk
      show (if log2phy.cell r e k = -1 then -1 else moved.cell r (position log2phy.dim2 (e, k)) : ℤ) = _
      rw [if_neg (by omega), hmovedIs.cell_eq r hr _ hin, position_div hk, position_mod hk]
      show ((new r (if log2phy.cell r e k = -1 then 0 else log2phy.cell r e k : ℤ).toNat : ℕ) : ℤ) = _
      rw [if_neg (by omega), hval, Int.toNat_natCast]
  · refine ⟨old r s, (hold r hr).mapsTo hs, ?_, hphyIs'.cell_eq r hr s hs⟩
    exact position_div ((hwithin r hr _ (div_lt hs)).mapsTo (mod_lt hs))

end Deal

/-! ## The policies -/

section Results

variable {K : Type} [Zero K] [Add K] [Mul K] [NatCast K] [Div K] {tokens : Tensor3 K}

/-- If the sizes fit, the maps agree, and the replicas of an expert are in its chunk. -/
theorem exists_redundantExperts (T : TorchVec K) {numChunks perGroup perChunk numLocal : ℕ}
    (hlayers : 0 < tokens.dim1) (hchunks : 0 < numChunks) (hpos : 0 < perGroup) (hle : perGroup ≤ perChunk)
    (hcols : tokens.dim2 = numChunks * perGroup) (hlocal : perChunk % numLocal = 0) :
    ∃ phy2log log2phy logcnt,
      makeRedundantExpertsChunkwise T tokens (numChunks * perChunk) numLocal perChunk =
        .ok (phy2log, log2phy, logcnt) ∧
      (phy2log.rows = tokens.dim1 ∧ phy2log.cols = numChunks * perChunk) ∧
      (log2phy.dim0 = tokens.dim1 ∧ log2phy.dim1 = tokens.dim2) ∧
      (logcnt.rows = tokens.dim1 ∧ logcnt.cols = tokens.dim2) ∧
      ∀ r < tokens.dim1,
        MapsAgree tokens.dim2 (Set.Iio (numChunks * perChunk)) log2phy.dim2 (phy2log.cell r) (log2phy.cell r)
          (logcnt.cell r) ∧
        ∀ s < numChunks * perChunk, (phy2log.cell r s).toNat / perGroup = s / perChunk := by
  have hsum : numChunks * perGroup + numChunks * (perChunk - perGroup) = numChunks * perChunk := by
    rw [← Nat.mul_add, Nat.add_sub_cancel' hle]
  have hdiff : numChunks * perChunk - tokens.dim2 = numChunks * (perChunk - perGroup) := by omega
  have hchunk : 0 < perChunk := lt_of_lt_of_le hpos hle
  have hnum : numChunks * perChunk / perChunk = numChunks := Nat.mul_div_cancel _ hchunk
  have hgroup : tokens.dim2 / numChunks = perGroup := by rw [hcols, Nat.mul_div_cancel_left _ hchunks]
  have hturns : (numChunks * perChunk - tokens.dim2) / numChunks = perChunk - perGroup := by
    rw [hdiff, Nat.mul_div_cancel_left _ hchunks]
  have hrest : ((numChunks * perChunk : ℕ) - (tokens.dim2 : ℕ) : ℤ) % (numChunks : ℤ) = 0 := by
    rw [← Int.ofNat_sub (by omega), hdiff, Int.natCast_mul]
    exact Int.mul_emod_right _ _
  obtain ⟨m, hm, hinv⟩ := @exists_chunkLoop perGroup perChunk K _ _ _ _ _ T tokens numChunks hpos
    (perChunk - perGroup) (by omega)
  rw [Nat.add_sub_cancel' hle] at hinv
  have hwidth (r : ℕ) (hr : r < tokens.dim1) (e : ℕ) (he : e < numChunks * perGroup) :
      m.logicalCount r e ≤ numChunks * perChunk - tokens.dim2 + 1 := by
    obtain ⟨f, hf⟩ := hinv r hr _ (div_lt he)
    have hcount := hf.count_le _ (mod_lt he)
    rw [position_div_mod] at hcount
    have hturn : perChunk - perGroup ≤ numChunks * (perChunk - perGroup) := Nat.le_mul_of_pos_left _ hchunks
    omega
  have hagree (r : ℕ) (hr : r < tokens.dim1) := ChunkMaps.mapsAgree (hinv r hr) (hwidth r hr)
  rw [← hcols] at hagree
  have hrun : makeRedundantExpertsChunkwise T tokens (numChunks * perChunk) numLocal perChunk =
      if 1 < numLocal then do
        let maps ← dealToGpus T.toTorch tokens numChunks perChunk numLocal
          ⟨tokens.dim1, numChunks * perChunk, m.physicalToLogicalMap⟩
          ⟨tokens.dim1, tokens.dim2, numChunks * perChunk - tokens.dim2 + 1, m.logicalToPhysicalMap⟩
          ⟨tokens.dim1, tokens.dim2, m.logicalCount⟩
        return (maps.1, maps.2, ⟨tokens.dim1, tokens.dim2, m.logicalCount⟩)
      else return (⟨tokens.dim1, numChunks * perChunk, m.physicalToLogicalMap⟩,
        ⟨tokens.dim1, tokens.dim2, numChunks * perChunk - tokens.dim2 + 1, m.logicalToPhysicalMap⟩,
        ⟨tokens.dim1, tokens.dim2, m.logicalCount⟩) := by
    rw [makeRedundantExpertsChunkwise, if_neg (by omega), if_neg hchunk.ne', if_neg (by simp)]
    simp only [hnum, hgroup, hturns, hm, ok_bind]
    rw [if_neg hchunks.ne', if_neg (by simp [hcols]), if_neg (not_not.mpr hrest), if_neg (not_lt.mpr hle)]
  rw [hrun]
  split
  · obtain ⟨phy2log, log2phy, hdeal, hphy, hlog, hmaps⟩ := @exists_dealToGpus K _ _ _ _ T.toTorch tokens
      numChunks perChunk numLocal ⟨tokens.dim1, numChunks * perChunk, m.physicalToLogicalMap⟩
      ⟨tokens.dim1, tokens.dim2, numChunks * perChunk - tokens.dim2 + 1, m.logicalToPhysicalMap⟩
      ⟨tokens.dim1, tokens.dim2, m.logicalCount⟩ hlayers (Nat.mul_pos hchunks hchunk) hlocal ⟨rfl, rfl⟩ ⟨rfl, rfl⟩ ⟨rfl, rfl⟩ fun r hr => (hagree r hr).1
    refine ⟨phy2log, log2phy, ⟨tokens.dim1, tokens.dim2, m.logicalCount⟩, by rw [hdeal]; rfl, hphy,
      ⟨hlog.1, hlog.2.1⟩, ⟨rfl, rfl⟩, fun r hr => ⟨(hmaps r hr).1, fun s hs => ?_⟩⟩
    obtain ⟨s', hs', hsame, hval⟩ := (hmaps r hr).2 s hs
    rw [hval, ← hsame]
    exact (hagree r hr).2 s' hs'
  · exact ⟨_, _, _, rfl, ⟨rfl, rfl⟩, ⟨rfl, rfl⟩, ⟨rfl, rfl⟩, hagree⟩

/-- Other numbers for the logical experts. -/
theorem MapsAgree.rename {numLogical width : ℕ} {live : Set ℕ} {phy2log phy2log' : ℕ → ℤ}
    {log2phy log2phy' : ℕ → ℕ → ℤ} {logcnt logcnt' : ℕ → ℕ}
    (h : MapsAgree numLogical live width phy2log log2phy logcnt) {σ τ : ℕ → ℕ}
    (hσ : Set.BijOn σ (Set.Iio numLogical) (Set.Iio numLogical)) (hτ : ∀ l < numLogical, τ (σ l) = l)
    (hphy : ∀ s ∈ live, phy2log' s = τ (phy2log s).toNat)
    (hlog : ∀ l < numLogical, ∀ k < width, log2phy' l k = log2phy (σ l) k)
    (hcnt : ∀ l < numLogical, logcnt' l = logcnt (σ l)) :
    MapsAgree numLogical live width phy2log' log2phy' logcnt' := by
  have hlt (l : ℕ) (hl : l < numLogical) : σ l < numLogical := hσ.mapsTo hl
  have hle (l : ℕ) (hl : l < numLogical) : logcnt (σ l) ≤ width := h.logcnt_le _ (hlt l hl)
  have hname (s : ℕ) (hs : s ∈ live) : ∃ l < numLogical, phy2log s = σ l ∧ phy2log' s = l := by
    obtain ⟨hnonneg, hbound⟩ := h.logical s hs
    obtain ⟨l, hl, hls⟩ := hσ.surjOn (show (phy2log s).toNat < numLogical by omega)
    refine ⟨l, hl, by omega, ?_⟩
    rw [hphy s hs, ← hls, hτ l hl]
  refine ⟨fun s hs => ?_, fun l hl => ?_, fun l hl => ?_, fun l hl k hk => ?_, fun s hs l hl hsl => ?_,
    fun l hl k hk hlk => ?_⟩
  · obtain ⟨l, hl, -, hval⟩ := hname s hs
    rw [hval]
    exact ⟨Int.natCast_nonneg l, Int.ofNat_lt.mpr hl⟩
  · rw [hcnt l hl]
    exact h.logcnt_pos _ (hlt l hl)
  · rw [hcnt l hl]
    exact hle l hl
  · rw [hcnt l hl] at hk
    obtain ⟨s, hs, hval, hsl⟩ := h.slot _ (hlt l hl) k hk
    refine ⟨s, hs, ?_, ?_⟩
    · rw [hlog l hl k (lt_of_lt_of_le hk (hle l hl)), hval]
    · rw [hphy s hs, hsl, Int.toNat_natCast, hτ l hl]
  · obtain ⟨l', hl', hσl, hval⟩ := hname s hs
    have hll : l' = l := Int.natCast_inj.mp (hval.symm.trans hsl)
    rw [hll] at hσl
    obtain ⟨k, ⟨hk, hkval⟩, hunique⟩ := h.listed s hs _ (hlt l hl) hσl
    rw [hcnt l hl]
    refine ⟨k, ⟨hk, (hlog l hl k (lt_of_lt_of_le hk (hle l hl))).trans hkval⟩, fun j hj => hunique j ⟨hj.1, ?_⟩⟩
    rw [← hlog l hl j (lt_of_lt_of_le hj.1 (hle l hl))]
    exact hj.2
  · rw [hlog l hl k hk]
    rw [hcnt l hl] at hlk
    exact h.pad _ (hlt l hl) k hk hlk

variable [LT K] [DecidableLT K]

/-- The hierarchical policy keeps the replicas of the experts of a group on one node. -/
theorem exists_prefillRebalance (T : TorchVec K) {nodes groupsPerNode groupSize perChunk numLocal : ℕ}
    (hlayers : 0 < tokens.dim1) (hnodes : 0 < nodes) (hgroups : 0 < groupsPerNode) (hsize : 0 < groupSize)
    (hle : groupsPerNode * groupSize ≤ perChunk) (hcols : tokens.dim2 = nodes * (groupsPerNode * groupSize))
    (hlocal : perChunk % numLocal = 0) :
    ∃ phy2log log2phy logcnt,
      prefillRebalanceExperts T tokens (nodes * perChunk) numLocal (some (nodes * groupsPerNode)) nodes =
        .ok (phy2log, log2phy, logcnt) ∧
      (phy2log.rows = tokens.dim1 ∧ phy2log.cols = nodes * perChunk) ∧
      (log2phy.dim0 = tokens.dim1 ∧ log2phy.dim1 = tokens.dim2) ∧
      (logcnt.rows = tokens.dim1 ∧ logcnt.cols = tokens.dim2) ∧
      ∀ r < tokens.dim1,
        MapsAgree tokens.dim2 (Set.Iio (nodes * perChunk)) log2phy.dim2 (phy2log.cell r) (log2phy.cell r)
          (logcnt.cell r) ∧
        ∃ node : ℕ → ℕ, (∀ g < nodes * groupsPerNode, node g < nodes) ∧
          ∀ s < nodes * perChunk, s / perChunk = node ((phy2log.cell r s).toNat / groupSize) := by
  have hgroupsPos : 0 < nodes * groupsPerNode := Nat.mul_pos hnodes hgroups
  have hcols' : tokens.dim2 = nodes * groupsPerNode * groupSize := by rw [hcols, Nat.mul_assoc]
  have hquot : tokens.dim2 / (nodes * groupsPerNode) = groupSize := by
    rw [hcols', Nat.mul_div_cancel_left _ hgroupsPos]
  have hchunkEq : nodes * perChunk / nodes = perChunk := Nat.mul_div_cancel_left _ hnodes
  -- the groups are moved as blocks
  let tokensPerGroup : Mat K := Tensor3.sumLast ⟨tokens.dim1, nodes * groupsPerNode, groupSize, fun r i j =>
    tokens.sumFirst.cell r (position groupSize (i, j))⟩
  have hgroupCols : tokensPerGroup.cols = nodes * groupsPerNode := rfl
  obtain ⟨groupPerm, hperm, pos, hposIs, hpos⟩ := packGroups_bijOn T.toTorch hnodes hgroupCols
  let log2mlog : Mat ℤ := Tensor3.flatten2 ⟨groupPerm.rows, groupPerm.cols, groupSize, fun l g j =>
    groupPerm.cell l g * groupSize + j⟩
  let σ (r l : ℕ) : ℕ := position groupSize (pos r (l / groupSize), l % groupSize)
  have hσIs : log2mlog.Is tokens.dim1 tokens.dim2 fun r l => (σ r l : ℤ) := by
    refine ⟨hposIs.rows_eq, ?_, fun r hr l hl => ?_⟩
    · show groupPerm.cols * groupSize = tokens.dim2
      rw [hposIs.cols_eq, hcols']
      rfl
    · rw [hcols'] at hl
      show groupPerm.cell r (l / groupSize) * groupSize + (l % groupSize : ℕ) = _
      rw [hposIs.cell_eq r hr _ (div_lt hl)]
      simp only [σ, position]
      push_cast
      rfl
  have hσ (r : ℕ) (hr : r < tokens.dim1) : Set.BijOn (σ r) (Set.Iio tokens.dim2) (Set.Iio tokens.dim2) := by
    rw [hcols']
    exact bijOn_blocks (hpos r hr)
  obtain ⟨mlog2log, hinverse, τ, hτIs, hτ⟩ := exists_inverse T.toTorch hσIs hσ
  obtain ⟨tokensPerMlog, htokens⟩ := exists_mapM_eq_ok (f := fun step =>
    (⟨tokens.dim1, tokens.dim2, tokens.cell step⟩ : Mat K).gather mlog2log) (List.range tokens.dim0)
    fun step _ => by
      obtain ⟨m, hm, -⟩ := Mat.Is.gather (m := ⟨tokens.dim1, tokens.dim2, tokens.cell step⟩)
        ⟨rfl, rfl, fun _ _ _ _ => rfl⟩ hτIs fun r hr c hc => (hτ r hr).1.mapsTo hc
      exact ⟨m, hm⟩
  obtain ⟨phy2mlog, mlog2phy, mlogcnt, hmake, hphy, hlog, hcnt, hmaps⟩ := @exists_redundantExperts K _ _ _ _ _
    ⟨tokens.dim0, tokens.dim1, tokens.dim2, fun step l e =>
      ((tokensPerMlog.getD step ⟨0, 0, fun _ _ => 0⟩).cell l e)⟩ T nodes (groupsPerNode * groupSize) perChunk
    numLocal hlayers hnodes (Nat.mul_pos hgroups hsize) hle hcols hlocal
  have hlogical (r : ℕ) (hr : r < tokens.dim1) (s : ℕ) (hs : s < nodes * perChunk) :=
    (hmaps r hr).1.logical s hs
  have hphyIs : phy2mlog.Is tokens.dim1 (nodes * perChunk) fun r s => ((phy2mlog.cell r s).toNat : ℤ) :=
    ⟨hphy.1, hphy.2, fun r hr s hs => (Int.toNat_of_nonneg (hlogical r hr s hs).1).symm⟩
  have hmlog (r : ℕ) (hr : r < tokens.dim1) (s : ℕ) (hs : s < nodes * perChunk) :
      (phy2mlog.cell r s).toNat < tokens.dim2 := by
    have hbounds := hlogical r hr s hs
    exact (Int.toNat_lt hbounds.1).mpr hbounds.2
  obtain ⟨phy2log, hphy2log, hphy2logIs⟩ := hτIs.gather hphyIs hmlog
  have hcntIs : mlogcnt.Is tokens.dim1 tokens.dim2 mlogcnt.cell := ⟨hcnt.1, hcnt.2, fun _ _ _ _ => rfl⟩
  obtain ⟨logcnt, hlogcnt, hlogcntIs⟩ := hcntIs.gather hσIs fun r hr l hl => (hσ r hr).mapsTo hl
  refine ⟨phy2log, {
    mlog2phy with
    cell := fun l e k => mlog2phy.cell l (log2mlog.cell l e).toNat k }, logcnt, ?_,
    ⟨hphy2logIs.rows_eq, hphy2logIs.cols_eq⟩, hlog, ⟨hlogcntIs.rows_eq, hlogcntIs.cols_eq⟩,
    fun r hr => ⟨?_, fun g => pos r g / groupsPerNode, fun g hg => div_lt ((hpos r hr).mapsTo hg),
      fun s hs => ?_⟩⟩
  · have hunflatten : tokens.sumFirst.unflatten (nodes * groupsPerNode) groupSize =
        .ok ⟨tokens.dim1, nodes * groupsPerNode, groupSize, fun r i j =>
          tokens.sumFirst.cell r (position groupSize (i, j))⟩ := if_pos hcols'.symm
    rw [prefillRebalanceExperts]
    simp only [hquot, hchunkEq]
    rw [if_neg hgroupsPos.ne', if_neg (by rw [hcols', Nat.mul_mod_right]; simp), if_neg hnodes.ne',
      if_neg (by simp), hunflatten, ok_bind]
    show ((packGroups T.toTorch tokensPerGroup nodes >>= _) : Except Error _) = _
    rw [hperm, ok_bind]
    show ((inverse T.toTorch log2mlog >>= _) : Except Error _) = _
    rw [hinverse, ok_bind, htokens, ok_bind, hmake, ok_bind]
    show ((mlog2log.gather phy2mlog >>= _) : Except Error _) = _
    rw [hphy2log, ok_bind]
    show ((mlogcnt.gather log2mlog >>= _) : Except Error _) = _
    rw [hlogcnt]
    rfl
  · refine (hmaps r hr).1.rename (hσ r hr) (hτ r hr).2.2 (fun s hs => hphy2logIs.cell_eq r hr s hs)
      (fun l hl k _ => ?_) fun l hl => hlogcntIs.cell_eq r hr l hl
    show mlog2phy.cell r (log2mlog.cell r l).toNat k = _
    rw [hσIs.cell_eq r hr l hl, Int.toNat_natCast]
  · have hm := hmlog r hr s hs
    have hlt : τ r (phy2mlog.cell r s).toNat < tokens.dim2 := (hτ r hr).1.mapsTo hm
    have hback := (hτ r hr).2.1 _ hm
    rw [hphy2logIs.cell_eq r hr s hs, Int.toNat_natCast, ← (hmaps r hr).2 s hs]
    conv_lhs => rw [← hback]
    rw [Nat.mul_comm groupsPerNode, ← Nat.div_div_eq_div_mul]
    show position groupSize (pos r _, _) / groupSize / groupsPerNode = _
    rw [position_div (Nat.mod_lt _ hsize)]

variable {numPhysical numNodes numGpus groups nodes : ℕ} {numGroups : Option ℕ} {enableHierarchical : Bool}

/-- If the sizes fit, the maps agree with each other whatever the loads are, and for the hierarchical policy
the replicas of the experts of a group are on one node. -/
theorem exists_vecMaps (T : TorchVec K) (hlayers : 0 < tokens.dim1)
    (hpolicy : if enableHierarchical then numGroups = some groups ∧ numNodes = nodes
      else groups = 1 ∧ nodes = 1)
    (h : Divisible tokens.dim2 numPhysical groups nodes numGpus) :
    ∃ phy2log log2phy logcnt,
      Vec.rebalanceExperts T tokens numPhysical (numPhysical / numGpus) numGroups numNodes enableHierarchical =
        .ok (phy2log, log2phy, logcnt) ∧
      (phy2log.rows = tokens.dim1 ∧ phy2log.cols = numPhysical) ∧
      (log2phy.dim0 = tokens.dim1 ∧ log2phy.dim1 = tokens.dim2) ∧
      (logcnt.rows = tokens.dim1 ∧ logcnt.cols = tokens.dim2) ∧
      ∀ r < tokens.dim1,
        MapsAgree tokens.dim2 (Set.Iio numPhysical) log2phy.dim2 (phy2log.cell r) (log2phy.cell r)
          (logcnt.cell r) ∧
        ∃ node : ℕ → ℕ, (∀ g < groups, node g < nodes) ∧ ∀ s < numPhysical,
          s / (numPhysical / nodes) = node ((phy2log.cell r s).toNat / (tokens.dim2 / groups)) := by
  obtain ⟨gpn, gs, gpus, per, hgpn, hgs, hgpus, rfl, rfl, hcols, rfl, hle⟩ := h.exists_factors
  have hper : nodes * (gpus * per) / (nodes * gpus) = per := by
    rw [← Nat.mul_assoc, Nat.mul_div_cancel_left _ h.gpus_pos]
  have hchunk : nodes * (gpus * per) / nodes = gpus * per := Nat.mul_div_cancel_left _ h.nodes_pos
  have hsize : tokens.dim2 / (nodes * gpn) = gs := by
    rw [hcols, ← Nat.mul_assoc, Nat.mul_div_cancel_left _ (Nat.mul_pos h.nodes_pos hgpn)]
  rw [hper, hchunk, hsize]
  rcases enableHierarchical with _ | _
  · obtain ⟨hone, rfl⟩ := hpolicy
    rw [Nat.one_mul] at hone
    subst hone
    simp only [Nat.one_mul] at hcols hle ⊢
    obtain ⟨phy2log, log2phy, logcnt, hrun, hphy, hlog, hcnt, hmaps⟩ := @exists_redundantExperts K _ _ _ _ _ tokens
      T 1 gs (gpus * per) per hlayers Nat.one_pos hgs hle (by rw [hcols, Nat.one_mul]) (Nat.mul_mod_left _ _)
    rw [Nat.one_mul] at hrun hphy hmaps
    refine ⟨phy2log, log2phy, logcnt, hrun, hphy, hlog, hcnt, fun r hr => ⟨(hmaps r hr).1, fun _ => 0,
      fun g _ => Nat.one_pos, fun s hs => Nat.div_eq_of_lt hs⟩⟩
  · obtain ⟨rfl, rfl⟩ := hpolicy
    exact exists_prefillRebalance T hlayers h.nodes_pos hgpn hgs hle hcols (Nat.mul_mod_left _ _)

end Results

end MoeSpecialization.Eplb
