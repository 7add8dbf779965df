import MoeSpecialization.Eplb.ChunkUtils
import Mathlib.Data.List.Sort

/-!
# What a rank does in a weight update

Reference: `update_expert_weights_single_layer` in `sglang/srt/eplb/expert_location_updater.py`.

When the experts of a layer move, every rank computes by itself which weights it copies from its own, which
it receives and which it sends; nothing is negotiated. A rank that receives an expert chooses the rank that
sends it, on its own node if that has the expert (`chosenSrcRank`), and the ranks that have the expert
compute the same choice from the other side (`exists_allDstRanks`).
-/

namespace MoeSpecialization.Eplb

open Py

/-- The arguments of `update_expert_weights_single_layer` that all ranks share. -/
structure LayerUpdate where
  oldPhysicalToLogicalMap : ℕ → ℤ
  newPhysicalToLogicalMap : ℕ → ℤ
  numPhysicalExperts : ℕ
  numLocalPhysicalExperts : ℕ
  numGpuPerNode : ℕ
  numTensors : ℕ

/-- `P2POp` on the tensor of an expert location. -/
inductive P2POp where
  | isend (tensor location peer : ℕ)
  | irecv (tensor location peer : ℕ)
deriving DecidableEq

namespace P2POp

/-- The tensor and the location of a message to a rank. -/
def sendTo? (dstRank : ℕ) : P2POp → Option (ℕ × ℕ)
  | .isend tensor location peer => if peer = dstRank then some (tensor, location) else none
  | .irecv .. => none

/-- The tensor and the location of a message from a rank. -/
def recvFrom? (srcRank : ℕ) : P2POp → Option (ℕ × ℕ)
  | .isend .. => none
  | .irecv tensor location peer => if peer = srcRank then some (tensor, location) else none

/-- The index of the tensor. -/
def tensor : P2POp → ℕ
  | .isend tensor _ _ | .irecv tensor _ _ => tensor

/-- The other rank. -/
def peer : P2POp → ℕ
  | .isend _ _ peer | .irecv _ _ peer => peer

/-- The location whose weights are sent, or whose temporary buffer is written. -/
def location : P2POp → ℕ
  | .isend _ location _ | .irecv _ location _ => location

theorem eq_of_sendTo?_eq_some {op : P2POp} {d : ℕ} {m : ℕ × ℕ} (h : op.sendTo? d = some m) :
    op = .isend m.1 m.2 d := by
  cases op with
  | irecv => cases h
  | isend tensor location peer =>
    rw [sendTo?] at h
    split at h
    · rename_i hpeer
      cases h
      rw [hpeer]
    · cases h

theorem eq_of_recvFrom?_eq_some {op : P2POp} {s : ℕ} {m : ℕ × ℕ} (h : op.recvFrom? s = some m) :
    op = .irecv m.1 m.2 s := by
  cases op with
  | isend => cases h
  | irecv tensor location peer =>
    rw [recvFrom?] at h
    split at h
    · rename_i hpeer
      cases h
      rw [hpeer]
    · cases h

end P2POp

/-- The cases of `_handle_recv_of_dst_expert_location`, as its log names them. -/
inductive RecvCase where
  | unchanged
  | sameGpu (srcExpertLocation : ℕ)
  | freeRider (srcExpertLocation : ℕ)
  | sameNode (chosenSrcRank : ℕ)
  | crossNode (chosenSrcRank : ℕ)
deriving DecidableEq

namespace RecvCase

/-- The rank that a case receives from. -/
def srcRank? : RecvCase → Option ℕ
  | .sameNode chosenSrcRank | .crossNode chosenSrcRank => some chosenSrcRank
  | _ => none

/-- The copy to the temporary buffer of a location. -/
def tempCopies (dstExpertLocation : ℕ) : RecvCase → List (ℕ × ℕ)
  | .sameGpu srcExpertLocation => [(srcExpertLocation, dstExpertLocation)]
  | _ => []

/-- The copy from a temporary buffer to the weights of a location. -/
def buffer2weightCopyInfos (dstExpertLocation : ℕ) : RecvCase → List (ℕ × ℕ)
  | .unchanged => []
  | .freeRider srcExpertLocation => [(srcExpertLocation, dstExpertLocation)]
  | _ => [(dstExpertLocation, dstExpertLocation)]

end RecvCase

/-- What a rank does in a layer: the copies of its own experts to the temporary buffers, which are made
while the operations are collected, the operations, and the copies from the buffers to the weights. -/
structure LayerProgram where
  tempCopies : List (ℕ × ℕ)
  p2pOps : List P2POp
  buffer2weightCopyInfos : List (ℕ × ℕ)
deriving DecidableEq

/-- `_deduplicate_ordered`. -/
def deduplicateOrdered (arr : List ℕ) : List ℕ :=
  arr.foldl (fun output item => if output.getLast? = some item then output else output ++ [item]) []

namespace LayerUpdate

variable (u : LayerUpdate) (rank : ℕ)

/-- `range(*local_expert_location_range)`. -/
def localExpertLocations : List ℕ :=
  List.range' (rank * u.numLocalPhysicalExperts) u.numLocalPhysicalExperts

/-! ## Communication -/

/-- `all_src_ranks`. -/
def allSrcRanks (logicalExpertId : ℤ) : List ℕ :=
  deduplicateOrdered (((List.range u.numPhysicalExperts).filter fun x =>
    u.oldPhysicalToLogicalMap x = logicalExpertId).map (· / u.numLocalPhysicalExperts))

/-- `self_node_src_ranks`. -/
def selfNodeSrcRanks (logicalExpertId : ℤ) : List ℕ :=
  (u.allSrcRanks logicalExpertId).filter fun x => x / u.numGpuPerNode = rank / u.numGpuPerNode

/-- `need_comm_dst_ranks`. -/
def needCommDstRanks (logicalExpertId : ℤ) : List ℕ :=
  deduplicateOrdered (((List.range u.numPhysicalExperts).filter fun x =>
    u.newPhysicalToLogicalMap x = logicalExpertId ∧
      x / u.numLocalPhysicalExperts ∉ u.allSrcRanks logicalExpertId).map (· / u.numLocalPhysicalExperts))

/-- `need_comm_self_node_dst_ranks`. -/
def needCommSelfNodeDstRanks (logicalExpertId : ℤ) : List ℕ :=
  if (u.selfNodeSrcRanks rank logicalExpertId).length > 0 then
    (u.needCommDstRanks logicalExpertId).filter fun x => x / u.numGpuPerNode = rank / u.numGpuPerNode
  else []

/-- `need_comm_cross_node_dst_ranks`. -/
def needCommCrossNodeDstRanks (logicalExpertId : ℤ) : List ℕ :=
  (u.needCommDstRanks logicalExpertId).filter fun x =>
    x / u.numGpuPerNode ∉ (u.allSrcRanks logicalExpertId).map (· / u.numGpuPerNode)

/-- `same_node_mapping`. -/
def sameNodeMapping (logicalExpertId : ℤ) : ChunkUtils ℕ where
  chunkValues := u.selfNodeSrcRanks rank logicalExpertId
  elementValues := u.needCommSelfNodeDstRanks rank logicalExpertId

/-- `cross_node_mapping`. -/
def crossNodeMapping (logicalExpertId : ℤ) : ChunkUtils ℕ where
  chunkValues := u.allSrcRanks logicalExpertId
  elementValues := u.needCommCrossNodeDstRanks logicalExpertId

/-! ## Receiving -/

/-- The case of `_handle_recv_of_dst_expert_location`. -/
def recvCase (dstExpertLocation : ℕ) : Except Error RecvCase :=
  let logicalExpertId := u.newPhysicalToLogicalMap dstExpertLocation
  let start := rank * u.numLocalPhysicalExperts
  if u.oldPhysicalToLogicalMap dstExpertLocation = logicalExpertId then .ok .unchanged
  else
    match (u.localExpertLocations rank).find? fun x => u.oldPhysicalToLogicalMap x = logicalExpertId with
    | some srcExpertLocation => .ok (.sameGpu srcExpertLocation)
    | none =>
      match (List.range' start (dstExpertLocation - start)).find? fun x =>
          u.newPhysicalToLogicalMap x = logicalExpertId with
      | some srcExpertLocation => .ok (.freeRider srcExpertLocation)
      | none =>
        if rank ∈ u.needCommSelfNodeDstRanks rank logicalExpertId then
          ((u.sameNodeMapping rank logicalExpertId).chunkValueFromElementValue rank).map .sameNode
        else ((u.crossNodeMapping logicalExpertId).chunkValueFromElementValue rank).map .crossNode

/-- `_handle_recv`: the locations of the rank with their cases. -/
def handleRecv : Except Error (List (ℕ × RecvCase)) :=
  (u.localExpertLocations rank).mapM fun dstExpertLocation => do
    return (dstExpertLocation, ← u.recvCase rank dstExpertLocation)

/-- The entries of `p2p_op_infos` of `_create_p2p_recv_and_buffer2weight_copy`. -/
def recvInfos (dstExpertLocation : ℕ) (c : RecvCase) : List (ℤ × List P2POp) :=
  c.srcRank?.toList.map fun srcRank =>
    (u.newPhysicalToLogicalMap dstExpertLocation,
      (List.range u.numTensors).map fun i => .irecv i dstExpertLocation srcRank)

/-! ## Sending -/

/-- `all_dst_ranks`. -/
def allDstRanks (logicalExpertId : ℤ) : Except Error (List ℕ) := do
  let sameNodeDstRanks ← (u.sameNodeMapping rank logicalExpertId).elementValuesFromChunkValue rank
  let crossNodeDstRanks ← (u.crossNodeMapping logicalExpertId).elementValuesFromChunkValue rank
  return sameNodeDstRanks ++ crossNodeDstRanks

/-- The entry of `p2p_op_infos` of `_create_isend_ops_of_logical_expert_id`. -/
def isendInfo (logicalExpertId : ℤ) (srcExpertLocation : ℕ) : Except Error (ℤ × List P2POp) := do
  let allDstRanks ← u.allDstRanks rank logicalExpertId
  return (logicalExpertId, allDstRanks.flatMap fun dstRank =>
    (List.range u.numTensors).map fun i => .isend i srcExpertLocation dstRank)

/-- The loop body of `_create_isend_ops`, with `handled_logical_expert_ids` and `p2p_op_infos`. -/
def createIsendStep (acc : List ℤ × List (ℤ × List P2POp)) (srcExpertLocation : ℕ) :
    Except Error (List ℤ × List (ℤ × List P2POp)) :=
  let logicalExpertId := u.oldPhysicalToLogicalMap srcExpertLocation
  if logicalExpertId ∈ acc.1 then .ok acc
  else do
    let info ← u.isendInfo rank logicalExpertId srcExpertLocation
    return (logicalExpertId :: acc.1, acc.2 ++ [info])

/-- `_create_isend_ops`. -/
def createIsendOps : Except Error (List ℤ × List (ℤ × List P2POp)) :=
  (u.localExpertLocations rank).foldlM (u.createIsendStep rank) ([], [])

/-- The order of the operations in `_execute_p2p_ops`. -/
def sortedOps (p2pOpInfos : List (ℤ × List P2POp)) : List P2POp :=
  (p2pOpInfos.mergeSort fun a b => a.1 ≤ b.1).flatMap Prod.snd

/-- `update_expert_weights_single_layer` on a rank. -/
def updateExpertWeightsSingleLayer : Except Error LayerProgram := do
  if u.numGpuPerNode = 0 then throw .zeroDivisionError
  let cases ← u.handleRecv rank
  let (_, isendInfos) ← u.createIsendOps rank
  return {
    tempCopies := cases.flatMap fun (dst, c) => c.tempCopies dst
    p2pOps := sortedOps ((cases.flatMap fun (dst, c) => u.recvInfos dst c) ++ isendInfos)
    buffer2weightCopyInfos := cases.flatMap fun (dst, c) => c.buffer2weightCopyInfos dst }

end LayerUpdate

/-! ## Ranks in order -/

theorem deduplicateOrdered_concat (arr : List ℕ) (x : ℕ) : deduplicateOrdered (arr ++ [x]) =
    if (deduplicateOrdered arr).getLast? = some x then deduplicateOrdered arr
    else deduplicateOrdered arr ++ [x] := by
  rw [deduplicateOrdered, List.foldl_append]
  rfl

/-- An ascending list loses exactly its repetitions. -/
theorem deduplicateOrdered_of_sorted {arr : List ℕ} (h : arr.Pairwise (· ≤ ·)) :
    (deduplicateOrdered arr).Pairwise (· < ·) ∧ (∀ x, x ∈ deduplicateOrdered arr ↔ x ∈ arr) ∧
      (deduplicateOrdered arr).getLast? = arr.getLast? := by
  induction arr using List.reverseRecOn with
  | nil => exact ⟨List.Pairwise.nil, fun x => Iff.rfl, rfl⟩
  | append_singleton arr y ih =>
    obtain ⟨hpairwise, -, hle⟩ := List.pairwise_append.mp h
    obtain ⟨hsorted, hmem, hlast⟩ := ih hpairwise
    rw [deduplicateOrdered_concat]
    split
    · rename_i heq
      have hy : y ∈ arr := (hmem y).mp (List.mem_of_getLast? heq)
      refine ⟨hsorted, fun x => ?_, ?_⟩
      · rw [hmem, List.mem_append, List.mem_singleton]
        exact ⟨.inl, fun hx => hx.elim id fun hx => hx ▸ hy⟩
      · rw [heq, List.getLast?_append, List.getLast?_singleton, Option.some_or]
    · rename_i hne
      refine ⟨List.pairwise_append.mpr ⟨hsorted, List.pairwise_singleton _ _, fun x hx z hz => ?_⟩,
        fun x => ?_, ?_⟩
      · rw [List.mem_singleton.mp hz]
        refine lt_of_le_of_ne (hle x ((hmem x).mp hx) y (List.mem_singleton.mpr rfl)) ?_
        rintro rfl
        -- the largest item so far is the last one
        obtain ⟨items, z, hitems⟩ : ∃ items z, deduplicateOrdered arr = items ++ [z] :=
          (List.eq_nil_or_concat' _).resolve_left (List.ne_nil_of_mem hx)
        have hzx : z ≤ x := hle z ((hmem z).mp (by simp [hitems])) x (List.mem_singleton.mpr rfl)
        rw [hitems, List.getLast?_concat, Option.some.injEq] at hne
        rw [hitems] at hsorted hx
        rcases List.mem_append.mp hx with hx | hx
        · have hxz := (List.pairwise_append.mp hsorted).2.2 x hx z (List.mem_singleton.mpr rfl)
          omega
        · exact hne (List.mem_singleton.mp hx).symm
      · rw [List.mem_append, List.mem_append, hmem]
      · simp

/-- Ranks computed from the locations of some experts. -/
theorem ranks_of_locations {n width : ℕ} (q : ℕ → Prop) [DecidablePred q] :
    (deduplicateOrdered (((List.range n).filter q).map (· / width))).Pairwise (· < ·) ∧
      ∀ r, r ∈ deduplicateOrdered (((List.range n).filter q).map (· / width)) ↔
        ∃ x < n, q x ∧ x / width = r := by
  have hsorted : (((List.range n).filter q).map (· / width)).Pairwise (· ≤ ·) := by
    refine List.pairwise_map.mpr (List.Pairwise.filter _ ?_)
    exact List.pairwise_lt_range.imp fun hlt => Nat.div_le_div_right hlt.le
  obtain ⟨hlt, hmem, -⟩ := deduplicateOrdered_of_sorted hsorted
  refine ⟨hlt, fun r => (hmem r).trans ?_⟩
  simp [and_assoc]

/-- An update of a layer on `worldSize` ranks: every rank has its part of the locations, and every expert
that is needed is somewhere. -/
structure LayerUpdate.WellFormed (u : LayerUpdate) (worldSize : ℕ) : Prop where
  numPhysicalExperts_eq : u.numPhysicalExperts = worldSize * u.numLocalPhysicalExperts
  numGpuPerNode_pos : 0 < u.numGpuPerNode
  covered : ∀ p < u.numPhysicalExperts, ∃ q < u.numPhysicalExperts,
    u.oldPhysicalToLogicalMap q = u.newPhysicalToLogicalMap p

namespace LayerUpdate

section Ranks

variable {u : LayerUpdate} {worldSize : ℕ}

theorem mem_localExpertLocations {r x : ℕ} : x ∈ u.localExpertLocations r ↔
    r * u.numLocalPhysicalExperts ≤ x ∧ x < r * u.numLocalPhysicalExperts + u.numLocalPhysicalExperts := by
  rw [localExpertLocations, List.mem_range'_1]

theorem div_eq_iff_mem {r x : ℕ} (hpos : 0 < u.numLocalPhysicalExperts) :
    x / u.numLocalPhysicalExperts = r ↔ x ∈ u.localExpertLocations r := by
  rw [mem_localExpertLocations, Nat.div_eq_iff hpos, Nat.mul_comm]
  omega

variable (h : u.WellFormed worldSize)

include h

theorem WellFormed.lt_of_mem {r x : ℕ} (hr : r < worldSize) (hx : x ∈ u.localExpertLocations r) :
    x < u.numPhysicalExperts := by
  have hle : (r + 1) * u.numLocalPhysicalExperts ≤ worldSize * u.numLocalPhysicalExperts :=
    Nat.mul_le_mul_right _ hr
  rw [Nat.succ_mul] at hle
  have := (mem_localExpertLocations.mp hx).2
  rw [h.numPhysicalExperts_eq]
  omega

/-- The rank of a location. -/
theorem WellFormed.exists_lt_div_eq_iff {q : ℕ → Prop} {r : ℕ} :
    (∃ x < u.numPhysicalExperts, q x ∧ x / u.numLocalPhysicalExperts = r) ↔
      r < worldSize ∧ ∃ x ∈ u.localExpertLocations r, q x := by
  constructor
  · rintro ⟨x, hx, hq, rfl⟩
    rw [h.numPhysicalExperts_eq] at hx
    have hpos : 0 < u.numLocalPhysicalExperts := Nat.pos_of_mul_pos_left (Nat.zero_lt_of_lt hx)
    exact ⟨Nat.div_lt_of_lt_mul (Nat.mul_comm _ _ ▸ hx), x, (div_eq_iff_mem hpos).mp rfl, hq⟩
  · rintro ⟨hr, x, hx, hq⟩
    have hpos : 0 < u.numLocalPhysicalExperts := by
      have := mem_localExpertLocations.mp hx
      omega
    exact ⟨x, h.lt_of_mem hr hx, hq, (div_eq_iff_mem hpos).mpr hx⟩

theorem WellFormed.mem_allSrcRanks {e : ℤ} {r : ℕ} : r ∈ u.allSrcRanks e ↔
    r < worldSize ∧ ∃ x ∈ u.localExpertLocations r, u.oldPhysicalToLogicalMap x = e :=
  ((ranks_of_locations _).2 r).trans h.exists_lt_div_eq_iff

theorem WellFormed.mem_needCommDstRanks {e : ℤ} {r : ℕ} : r ∈ u.needCommDstRanks e ↔
    r < worldSize ∧ (∃ x ∈ u.localExpertLocations r, u.newPhysicalToLogicalMap x = e) ∧
      r ∉ u.allSrcRanks e := by
  have hnew := h.exists_lt_div_eq_iff (q := fun x => u.newPhysicalToLogicalMap x = e) (r := r)
  rw [needCommDstRanks, (ranks_of_locations _).2 r, ← and_assoc, ← hnew]
  constructor
  · rintro ⟨x, hx, ⟨hq, hsrc⟩, rfl⟩
    exact ⟨⟨x, hx, hq, rfl⟩, hsrc⟩
  · rintro ⟨⟨x, hx, hq, rfl⟩, hsrc⟩
    exact ⟨x, hx, ⟨hq, hsrc⟩, rfl⟩

end Ranks

/-! ## The choice of the sender -/

section Choice

variable {u : LayerUpdate} {worldSize : ℕ} {e : ℤ}

theorem nodup_allSrcRanks (e : ℤ) : (u.allSrcRanks e).Nodup :=
  (ranks_of_locations _).1.imp fun hlt => hlt.ne

theorem nodup_needCommDstRanks (e : ℤ) : (u.needCommDstRanks e).Nodup :=
  (ranks_of_locations _).1.imp fun hlt => hlt.ne

theorem nodup_needCommSelfNodeDstRanks (r : ℕ) (e : ℤ) : (u.needCommSelfNodeDstRanks r e).Nodup := by
  rw [needCommSelfNodeDstRanks]
  split
  · exact (nodup_needCommDstRanks e).filter _
  · exact List.nodup_nil

/-- The rank that a rank chooses to receive an expert from, in the cases `same-node` and `cross-node`. -/
def chosenSrcRank (u : LayerUpdate) (rank : ℕ) (logicalExpertId : ℤ) : Except Error ℕ :=
  if rank ∈ u.needCommSelfNodeDstRanks rank logicalExpertId then
    (u.sameNodeMapping rank logicalExpertId).chunkValueFromElementValue rank
  else (u.crossNodeMapping logicalExpertId).chunkValueFromElementValue rank

theorem mem_selfNodeSrcRanks {r s : ℕ} : s ∈ u.selfNodeSrcRanks r e ↔
    s ∈ u.allSrcRanks e ∧ s / u.numGpuPerNode = r / u.numGpuPerNode := by
  simp [selfNodeSrcRanks]

/-- The ranks of a node that has the expert. -/
theorem mem_needCommSelfNodeDstRanks {r s d : ℕ} (hs : s ∈ u.selfNodeSrcRanks r e) :
    d ∈ u.needCommSelfNodeDstRanks r e ↔
      d ∈ u.needCommDstRanks e ∧ d / u.numGpuPerNode = r / u.numGpuPerNode := by
  rw [needCommSelfNodeDstRanks, if_pos (List.length_pos_of_mem hs)]
  simp

theorem mem_needCommCrossNodeDstRanks {d : ℕ} : d ∈ u.needCommCrossNodeDstRanks e ↔
    d ∈ u.needCommDstRanks e ∧ ∀ s ∈ u.allSrcRanks e, s / u.numGpuPerNode ≠ d / u.numGpuPerNode := by
  simp [needCommCrossNodeDstRanks]

/-- The two mappings of a node are the same on all its ranks. -/
theorem sameNodeMapping_congr {r d : ℕ} (h : d / u.numGpuPerNode = r / u.numGpuPerNode) (e : ℤ) :
    u.sameNodeMapping d e = u.sameNodeMapping r e := by
  have hsrc : u.selfNodeSrcRanks d e = u.selfNodeSrcRanks r e := by
    rw [selfNodeSrcRanks, selfNodeSrcRanks, h]
  have hdst : u.needCommSelfNodeDstRanks d e = u.needCommSelfNodeDstRanks r e := by
    rw [needCommSelfNodeDstRanks, needCommSelfNodeDstRanks, hsrc, h]
  rw [sameNodeMapping, sameNodeMapping, hsrc, hdst]

/-- A rank that needs an expert chooses within its node, if that has the expert. -/
theorem chosenSrcRank_of_mem {d s : ℕ} (hd : d ∈ u.needCommDstRanks e) (hs : s ∈ u.selfNodeSrcRanks d e) :
    u.chosenSrcRank d e = (u.sameNodeMapping d e).chunkValueFromElementValue d :=
  if_pos ((mem_needCommSelfNodeDstRanks hs).mpr ⟨hd, rfl⟩)

theorem chosenSrcRank_of_forall_ne {d : ℕ}
    (hs : ∀ s ∈ u.allSrcRanks e, s / u.numGpuPerNode ≠ d / u.numGpuPerNode) :
    u.chosenSrcRank d e = (u.crossNodeMapping e).chunkValueFromElementValue d := by
  refine if_neg fun hd => ?_
  rw [needCommSelfNodeDstRanks] at hd
  split at hd
  · rename_i hpos
    obtain ⟨s, hmem⟩ := List.exists_mem_of_length_pos hpos
    exact hs s (mem_selfNodeSrcRanks.mp hmem).1 (mem_selfNodeSrcRanks.mp hmem).2
  · cases hd

/-- The rank that is chosen has the expert. -/
theorem mem_allSrcRanks_of_chosen {d s : ℕ} (hs : u.chosenSrcRank d e = .ok s) : s ∈ u.allSrcRanks e := by
  rw [chosenSrcRank] at hs
  split at hs
  · exact (mem_selfNodeSrcRanks.mp (ChunkUtils.mem_of_chunkValueFromElementValue hs)).1
  · exact ChunkUtils.mem_of_chunkValueFromElementValue hs

/-- A rank that needs an expert finds a rank that has it. -/
theorem exists_chosenSrcRank {d : ℕ} (hd : d ∈ u.needCommDstRanks e) (hne : u.allSrcRanks e ≠ []) :
    ∃ s, u.chosenSrcRank d e = .ok s := by
  by_cases hnode : ∃ s, s ∈ u.selfNodeSrcRanks d e
  · obtain ⟨s, hs⟩ := hnode
    have helem : d ∈ (u.sameNodeMapping d e).elementValues :=
      (mem_needCommSelfNodeDstRanks hs).mpr ⟨hd, rfl⟩
    exact ⟨_, (chosenSrcRank_of_mem hd hs).trans
      (ChunkUtils.run_chunkValueFromElementValue (List.length_pos_of_mem hs) helem)⟩
  · have hcross : ∀ s ∈ u.allSrcRanks e, s / u.numGpuPerNode ≠ d / u.numGpuPerNode :=
      fun s hs heq => hnode ⟨s, mem_selfNodeSrcRanks.mpr ⟨hs, heq⟩⟩
    have helem : d ∈ (u.crossNodeMapping e).elementValues :=
      mem_needCommCrossNodeDstRanks.mpr ⟨hd, hcross⟩
    exact ⟨_, (chosenSrcRank_of_forall_ne hcross).trans
      (ChunkUtils.run_chunkValueFromElementValue (List.length_pos_iff.mpr hne) helem)⟩

/-- A rank that has an expert sends it to exactly the ranks that choose it. -/
theorem exists_allDstRanks {s : ℕ} (hs : s ∈ u.allSrcRanks e) :
    ∃ dsts, u.allDstRanks s e = .ok dsts ∧ dsts.Nodup ∧
      ∀ d, d ∈ dsts ↔ d ∈ u.needCommDstRanks e ∧ u.chosenSrcRank d e = .ok s := by
  have hself : s ∈ u.selfNodeSrcRanks s e := mem_selfNodeSrcRanks.mpr ⟨hs, rfl⟩
  have hsameNodup : (u.sameNodeMapping s e).chunkValues.Nodup := (nodup_allSrcRanks e).filter _
  have hcrossNodup : (u.crossNodeMapping e).elementValues.Nodup := (nodup_needCommDstRanks e).filter _
  set same := (u.sameNodeMapping s e).slice ((u.sameNodeMapping s e).chunkValues.idxOf s) with hsame
  set cross := (u.crossNodeMapping e).slice ((u.crossNodeMapping e).chunkValues.idxOf s) with hcross
  have hsameMem : ∀ d, d ∈ same ↔ (d ∈ u.needCommDstRanks e ∧ d / u.numGpuPerNode = s / u.numGpuPerNode) ∧
      (u.sameNodeMapping s e).chunkValueFromElementValue d = .ok s := fun d => by
    rw [hsame, ChunkUtils.mem_slice_iff hsameNodup (nodup_needCommSelfNodeDstRanks s e) hself,
      ← mem_needCommSelfNodeDstRanks hself]
    rfl
  have hcrossMem : ∀ d, d ∈ cross ↔ (d ∈ u.needCommDstRanks e ∧
      ∀ s ∈ u.allSrcRanks e, s / u.numGpuPerNode ≠ d / u.numGpuPerNode) ∧
      (u.crossNodeMapping e).chunkValueFromElementValue d = .ok s := fun d => by
    rw [hcross, ChunkUtils.mem_slice_iff (nodup_allSrcRanks e) hcrossNodup hs,
      ← mem_needCommCrossNodeDstRanks]
    rfl
  refine ⟨same ++ cross, ?_, ?_, fun d => ?_⟩
  · rw [allDstRanks, ChunkUtils.elementValuesFromChunkValue_eq_ok hself,
      ChunkUtils.elementValuesFromChunkValue_eq_ok hs]
    rfl
  · refine List.nodup_append.mpr ⟨?_, ?_, fun d hd d' hd' => ?_⟩
    · exact ((nodup_needCommSelfNodeDstRanks s e).sublist (List.drop_sublist _ _)).sublist
        (List.take_sublist _ _)
    · exact (hcrossNodup.sublist (List.drop_sublist _ _)).sublist (List.take_sublist _ _)
    · rintro rfl
      exact ((hcrossMem d).mp hd').1.2 s hs ((hsameMem d).mp hd).1.2.symm
  · rw [List.mem_append, hsameMem, hcrossMem]
    by_cases hd : d ∈ u.needCommDstRanks e
    swap
    · simp [hd]
    by_cases hnode : d / u.numGpuPerNode = s / u.numGpuPerNode
    · -- on the node of the sender
      have hmem : s ∈ u.selfNodeSrcRanks d e := mem_selfNodeSrcRanks.mpr ⟨hs, hnode.symm⟩
      rw [chosenSrcRank_of_mem hd hmem, sameNodeMapping_congr hnode]
      simp only [hd, hnode, true_and]
      refine or_iff_left fun hfar => ?_
      exact hfar.1 s hs rfl
    · by_cases hlocal : ∃ s', s' ∈ u.selfNodeSrcRanks d e
      · -- on another node that has the expert: the choice is on that node
        obtain ⟨s', hs'⟩ := hlocal
        have hfar := mem_selfNodeSrcRanks.mp hs'
        rw [chosenSrcRank_of_mem hd hs']
        constructor
        · rintro (hc | hc)
          · exact absurd hc.1.2 hnode
          · exact absurd hfar.2 (hc.1.2 s' hfar.1)
        · rintro ⟨-, hc⟩
          have := (mem_selfNodeSrcRanks.mp (ChunkUtils.mem_of_chunkValueFromElementValue hc)).2
          exact absurd this.symm hnode
      · have hfar : ∀ s ∈ u.allSrcRanks e, s / u.numGpuPerNode ≠ d / u.numGpuPerNode :=
          fun s hs heq => hlocal ⟨s, mem_selfNodeSrcRanks.mpr ⟨hs, heq⟩⟩
        rw [chosenSrcRank_of_forall_ne hfar]
        constructor
        · rintro (hc | hc)
          · exact absurd hc.1.2 hnode
          · exact ⟨hd, hc.2⟩
        · rintro ⟨-, hc⟩
          exact .inr ⟨⟨hd, hfar⟩, hc⟩

end Choice

/-! ## The cases of a location -/

section Cases

variable {u : LayerUpdate} {worldSize : ℕ}

/-- What is known of a location in each case. A rank receives an expert that it does not have at the first
location that needs it. -/
def CaseSpec (u : LayerUpdate) (rank dst : ℕ) : RecvCase → Prop
  | .unchanged => u.oldPhysicalToLogicalMap dst = u.newPhysicalToLogicalMap dst
  | .sameGpu src => src ∈ u.localExpertLocations rank ∧
      u.oldPhysicalToLogicalMap src = u.newPhysicalToLogicalMap dst
  | .freeRider src => src ∈ u.localExpertLocations rank ∧ src < dst ∧
      u.newPhysicalToLogicalMap src = u.newPhysicalToLogicalMap dst ∧
      (∀ x ∈ u.localExpertLocations rank, u.oldPhysicalToLogicalMap x ≠ u.newPhysicalToLogicalMap dst) ∧
      ∀ x ∈ u.localExpertLocations rank, x < src →
        u.newPhysicalToLogicalMap x ≠ u.newPhysicalToLogicalMap dst
  | .sameNode srcRank | .crossNode srcRank =>
      (∀ x ∈ u.localExpertLocations rank, u.oldPhysicalToLogicalMap x ≠ u.newPhysicalToLogicalMap dst) ∧
      (∀ x ∈ u.localExpertLocations rank, x < dst →
        u.newPhysicalToLogicalMap x ≠ u.newPhysicalToLogicalMap dst) ∧
      u.chosenSrcRank rank (u.newPhysicalToLogicalMap dst) = .ok srcRank

/-- A rank that does not have an expert that it needs has to receive it, and can. -/
theorem WellFormed.exists_chosen (h : u.WellFormed worldSize) {rank dst : ℕ} (hrank : rank < worldSize)
    (hdst : dst ∈ u.localExpertLocations rank) (hold : ∀ x ∈ u.localExpertLocations rank,
      u.oldPhysicalToLogicalMap x ≠ u.newPhysicalToLogicalMap dst) :
    rank ∈ u.needCommDstRanks (u.newPhysicalToLogicalMap dst) ∧
      ∃ s, u.chosenSrcRank rank (u.newPhysicalToLogicalMap dst) = .ok s := by
  have hsrc : rank ∉ u.allSrcRanks (u.newPhysicalToLogicalMap dst) := fun hmem => by
    obtain ⟨-, x, hx, heq⟩ := h.mem_allSrcRanks.mp hmem
    exact hold x hx heq
  have hneed : rank ∈ u.needCommDstRanks (u.newPhysicalToLogicalMap dst) :=
    h.mem_needCommDstRanks.mpr ⟨hrank, ⟨dst, hdst, rfl⟩, hsrc⟩
  have hne : u.allSrcRanks (u.newPhysicalToLogicalMap dst) ≠ [] := by
    obtain ⟨q, hq, hqe⟩ := h.covered dst (h.lt_of_mem hrank hdst)
    exact List.ne_nil_of_mem (((ranks_of_locations _).2 _).mpr ⟨q, hq, hqe, rfl⟩)
  exact ⟨hneed, exists_chosenSrcRank hneed hne⟩

theorem WellFormed.exists_recvCase (h : u.WellFormed worldSize) {rank dst : ℕ} (hrank : rank < worldSize)
    (hdst : dst ∈ u.localExpertLocations rank) :
    ∃ c, u.recvCase rank dst = .ok c ∧ u.CaseSpec rank dst c := by
  have hbounds := mem_localExpertLocations.mp hdst
  unfold recvCase
  dsimp only
  split
  · rename_i hsame
    exact ⟨_, rfl, hsame⟩
  split
  · rename_i src hfind
    exact ⟨_, rfl, List.mem_of_find?_eq_some hfind, by simpa using List.find?_some hfind⟩
  · rename_i hsrc
    have hold : ∀ x ∈ u.localExpertLocations rank,
        u.oldPhysicalToLogicalMap x ≠ u.newPhysicalToLogicalMap dst :=
      fun x hx => of_decide_eq_false (Bool.eq_false_iff.mpr (List.find?_eq_none.mp hsrc x hx))
    split
    · rename_i src hfind
      obtain ⟨hnew, hmem, hfirst⟩ := List.find?_range'_eq_some.mp hfind
      rw [List.mem_range'_1] at hmem
      refine ⟨_, rfl, mem_localExpertLocations.mpr (by omega), by omega, of_decide_eq_true hnew, hold,
        fun x hx hlt => ?_⟩
      simpa using hfirst x (mem_localExpertLocations.mp hx).1 hlt
    · rename_i hfind
      have hfirst : ∀ x ∈ u.localExpertLocations rank, x < dst →
          u.newPhysicalToLogicalMap x ≠ u.newPhysicalToLogicalMap dst := by
        intro x hx hlt
        have hx := mem_localExpertLocations.mp hx
        simpa using List.find?_range'_eq_none.mp hfind x hx.1 (by omega)
      obtain ⟨-, s, hs⟩ := h.exists_chosen hrank hdst hold
      have hspec := hs
      rw [chosenSrcRank] at hs
      split
      · rename_i hmem
        rw [if_pos hmem] at hs
        rw [hs]
        exact ⟨_, rfl, hold, hfirst, hspec⟩
      · rename_i hmem
        rw [if_neg hmem] at hs
        rw [hs]
        exact ⟨_, rfl, hold, hfirst, hspec⟩

/-- The case of a location, where it has one. -/
def caseOf (u : LayerUpdate) (rank dst : ℕ) : RecvCase :=
  match u.recvCase rank dst with
  | .ok c => c
  | .error _ => .unchanged

theorem WellFormed.recvCase_eq (h : u.WellFormed worldSize) {rank dst : ℕ} (hrank : rank < worldSize)
    (hdst : dst ∈ u.localExpertLocations rank) :
    u.recvCase rank dst = .ok (u.caseOf rank dst) ∧ u.CaseSpec rank dst (u.caseOf rank dst) := by
  obtain ⟨c, hc, hspec⟩ := h.exists_recvCase hrank hdst
  rw [caseOf, hc]
  exact ⟨rfl, hspec⟩

theorem WellFormed.handleRecv_eq (h : u.WellFormed worldSize) {rank : ℕ} (hrank : rank < worldSize) :
    u.handleRecv rank = .ok ((u.localExpertLocations rank).map fun dst => (dst, u.caseOf rank dst)) := by
  refine mapM_eq_ok_map fun dst hdst => ?_
  rw [(h.recvCase_eq hrank hdst).1]
  rfl

/-- The sender of a location is the rank that its expert is chosen from, and no location before it has the
same expert. -/
theorem WellFormed.srcRank?_eq_some (h : u.WellFormed worldSize) {rank dst s : ℕ} (hrank : rank < worldSize)
    (hdst : dst ∈ u.localExpertLocations rank) :
    (u.caseOf rank dst).srcRank? = some s ↔
      rank ∈ u.needCommDstRanks (u.newPhysicalToLogicalMap dst) ∧
      (∀ x ∈ u.localExpertLocations rank, x < dst →
        u.newPhysicalToLogicalMap x ≠ u.newPhysicalToLogicalMap dst) ∧
      u.chosenSrcRank rank (u.newPhysicalToLogicalMap dst) = .ok s := by
  have hneed : rank ∈ u.needCommDstRanks (u.newPhysicalToLogicalMap dst) ↔
      ∀ x ∈ u.localExpertLocations rank, u.oldPhysicalToLogicalMap x ≠ u.newPhysicalToLogicalMap dst := by
    rw [h.mem_needCommDstRanks, h.mem_allSrcRanks]
    constructor
    · rintro ⟨-, -, hno⟩ x hx heq
      exact hno ⟨hrank, x, hx, heq⟩
    · rintro hno
      refine ⟨hrank, ⟨dst, hdst, rfl⟩, ?_⟩
      rintro ⟨-, x, hx, heq⟩
      exact hno x hx heq
  rw [hneed]
  have hspec := (h.recvCase_eq hrank hdst).2
  generalize u.caseOf rank dst = c at hspec ⊢
  cases c with
  | unchanged => simpa [RecvCase.srcRank?] using fun hno => absurd hspec (hno dst hdst)
  | sameGpu src => simpa [RecvCase.srcRank?] using fun hno => absurd hspec.2 (hno src hspec.1)
  | freeRider src =>
    simpa [RecvCase.srcRank?] using fun _ hfirst => absurd hspec.2.2.1 (hfirst src hspec.1 hspec.2.1)
  | sameNode srcRank =>
    obtain ⟨hold, hfirst, hchosen⟩ := hspec
    rw [hchosen, Except.ok.injEq, RecvCase.srcRank?, Option.some.injEq, and_iff_right hold,
      and_iff_right hfirst]
  | crossNode srcRank =>
    obtain ⟨hold, hfirst, hchosen⟩ := hspec
    rw [hchosen, Except.ok.injEq, RecvCase.srcRank?, Option.some.injEq, and_iff_right hold,
      and_iff_right hfirst]

end Cases

end LayerUpdate

end MoeSpecialization.Eplb
