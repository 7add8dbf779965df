import MoeSpecialization.Common.Rounds
import MoeSpecialization.Eplb.Messages

/-!
# Exchanging the weights

Reference: `_update_expert_weights_raw`, `_update_expert_weights_with_canary` and
`update_expert_weights_single_layer` in `sglang/srt/eplb/expert_location_updater.py`.

The ranks work through the layers of an update without waiting for each other. In a layer a rank copies its
own experts to the temporary buffers, sends from its weights, receives to its buffers, and copies the
buffers to the weights when all its operations are done. The layers share the buffers and the order of the
messages between two ranks, which is kept by `torch.distributed`.

The layers are the rounds of `Common/Rounds.lean`, and the contract is that every location has the weights
of its expert: of the old map in the layers that are to come, of the new map in those that are done. So in
every interleaving the update ends with the weights of the new map (`weights_exchanged`).
-/

namespace MoeSpecialization.Eplb

open Py Rounds

/-! ## The copies of a program -/

namespace LayerUpdate

variable {u : LayerUpdate} {worldSize rank : ℕ} {p : LayerProgram}

theorem WellFormed.program_eq (h : u.WellFormed worldSize) (hrank : rank < worldSize)
    (hp : u.updateExpertWeightsSingleLayer rank = .ok p) :
    p.tempCopies = ((u.localExpertLocations rank).flatMap fun dst => (u.caseOf rank dst).tempCopies dst) ∧
      p.buffer2weightCopyInfos = ((u.localExpertLocations rank).flatMap fun dst =>
        (u.caseOf rank dst).buffer2weightCopyInfos dst) ∧
      ∃ infos : List (ℤ × List P2POp), (∀ info ∈ infos, u.IsendSpec rank info) ∧
        p.p2pOps = sortedOps (u.allRecvInfos rank ++ infos) := by
  obtain ⟨infos, -, hinfos, -, hprogram⟩ := h.exists_program hrank
  rw [hprogram] at hp
  cases hp
  exact ⟨rfl, rfl, infos, hinfos, rfl⟩

/-- A rank copies from its own locations, to a location that needs the expert. -/
theorem WellFormed.of_mem_tempCopies (h : u.WellFormed worldSize) (hrank : rank < worldSize)
    (hp : u.updateExpertWeightsSingleLayer rank = .ok p) {src dst : ℕ} (hmem : (src, dst) ∈ p.tempCopies) :
    src ∈ u.localExpertLocations rank ∧ dst ∈ u.localExpertLocations rank ∧
      u.oldPhysicalToLogicalMap src = u.newPhysicalToLogicalMap dst := by
  rw [(h.program_eq hrank hp).1] at hmem
  obtain ⟨x, hx, hmem⟩ := List.mem_flatMap.mp hmem
  have hspec := (h.recvCase_eq hrank hx).2
  generalize u.caseOf rank x = c at hspec hmem
  cases c with
  | sameGpu y =>
    obtain ⟨rfl, rfl⟩ : src = y ∧ dst = x := by simpa [RecvCase.tempCopies] using hmem
    exact ⟨hspec.1, hx, hspec.2⟩
  | unchanged => cases hmem
  | freeRider y => cases hmem
  | sameNode s => cases hmem
  | crossNode s => cases hmem

/-- A rank that has none of an expert receives all its tensors at the first location that needs it. -/
theorem WellFormed.exists_recv (h : u.WellFormed worldSize) (hrank : rank < worldSize)
    (hp : u.updateExpertWeightsSingleLayer rank = .ok p) {dst s : ℕ}
    (hdst : dst ∈ u.localExpertLocations rank) (hsrc : (u.caseOf rank dst).srcRank? = some s) :
    s < worldSize ∧ ∀ i < u.numTensors, (i, dst) ∈ p.p2pOps.filterMap (·.recvFrom? s) := by
  obtain ⟨-, -, infos, hinfos, hops⟩ := h.program_eq hrank hp
  have hchosen := ((h.srcRank?_eq_some hrank hdst).mp hsrc).2.2
  refine ⟨(h.mem_allSrcRanks.mp (mem_allSrcRanks_of_chosen hchosen)).1, fun i hi => ?_⟩
  refine List.mem_filterMap.mpr ⟨.irecv i dst s, ?_, by simp [P2POp.recvFrom?]⟩
  rw [hops, mem_sortedOps]
  refine ⟨(u.newPhysicalToLogicalMap dst, (List.range u.numTensors).map fun i => .irecv i dst s), ?_, ?_⟩
  · refine List.mem_append_left _ (List.mem_flatMap.mpr ⟨dst, hdst, ?_⟩)
    rw [recvInfos, hsrc]
    exact List.mem_singleton.mpr rfl
  · exact List.mem_map.mpr ⟨i, List.mem_range.mpr hi, rfl⟩

/-- The buffers that a rank copies to its weights are filled: by a copy or by messages of one rank. -/
theorem WellFormed.of_mem_buffer2weightCopyInfos (h : u.WellFormed worldSize) (hrank : rank < worldSize)
    (hp : u.updateExpertWeightsSingleLayer rank = .ok p) {src dst : ℕ}
    (hmem : (src, dst) ∈ p.buffer2weightCopyInfos) :
    src ∈ u.localExpertLocations rank ∧ dst ∈ u.localExpertLocations rank ∧
      u.newPhysicalToLogicalMap src = u.newPhysicalToLogicalMap dst ∧
      ((∃ x, (x, src) ∈ p.tempCopies) ∨
        ∃ s < worldSize, ∀ i < u.numTensors, (i, src) ∈ p.p2pOps.filterMap (·.recvFrom? s)) := by
  rw [(h.program_eq hrank hp).2.1] at hmem
  obtain ⟨x, hx, hmem⟩ := List.mem_flatMap.mp hmem
  obtain ⟨hcase, hspec⟩ := h.recvCase_eq hrank hx
  have hown : ∀ s, (u.caseOf rank x).srcRank? = some s →
      ∃ s < worldSize, ∀ i < u.numTensors, (i, x) ∈ p.p2pOps.filterMap (·.recvFrom? s) :=
    fun s hs => ⟨s, h.exists_recv hrank hp hx hs⟩
  cases hc : u.caseOf rank x with
  | unchanged =>
    rw [hc] at hmem
    cases hmem
  | sameGpu y =>
    rw [hc] at hmem
    obtain ⟨rfl, rfl⟩ : src = x ∧ dst = x := by simpa [RecvCase.buffer2weightCopyInfos] using hmem
    refine ⟨hx, hx, rfl, .inl ⟨y, ?_⟩⟩
    rw [(h.program_eq hrank hp).1]
    exact List.mem_flatMap.mpr ⟨_, hx, by simp [hc, RecvCase.tempCopies]⟩
  | freeRider y =>
    rw [hc] at hmem hspec
    obtain ⟨rfl, rfl⟩ : src = y ∧ dst = x := by simpa [RecvCase.buffer2weightCopyInfos] using hmem
    obtain ⟨hy, -, hnew, hold, hfirst⟩ := hspec
    refine ⟨hy, hx, hnew, .inr ?_⟩
    rw [← hnew] at hold hfirst
    -- the first location with the expert is the one that receives it
    obtain ⟨hneed, s, hs⟩ := h.exists_chosen hrank hy hold
    exact ⟨s, h.exists_recv hrank hp hy ((h.srcRank?_eq_some hrank hy).mpr ⟨hneed, hfirst, hs⟩)⟩
  | sameNode s =>
    rw [hc] at hmem
    obtain ⟨rfl, rfl⟩ : src = x ∧ dst = x := by simpa [RecvCase.buffer2weightCopyInfos] using hmem
    exact ⟨hx, hx, rfl, .inr (hown s (by rw [hc]; rfl))⟩
  | crossNode s =>
    rw [hc] at hmem
    obtain ⟨rfl, rfl⟩ : src = x ∧ dst = x := by simpa [RecvCase.buffer2weightCopyInfos] using hmem
    exact ⟨hx, hx, rfl, .inr (hown s (by rw [hc]; rfl))⟩

/-- A location that is not written has its expert already. -/
theorem WellFormed.exists_copy (h : u.WellFormed worldSize) (hrank : rank < worldSize)
    (hp : u.updateExpertWeightsSingleLayer rank = .ok p) {x : ℕ} (hx : x ∈ u.localExpertLocations rank) :
    u.oldPhysicalToLogicalMap x = u.newPhysicalToLogicalMap x ∨
      ∃ src, (src, x) ∈ p.buffer2weightCopyInfos := by
  have hspec := (h.recvCase_eq hrank hx).2
  rw [(h.program_eq hrank hp).2.1]
  cases hc : u.caseOf rank x with
  | unchanged =>
    rw [hc] at hspec
    exact .inl hspec
  | sameGpu y => exact .inr ⟨x, List.mem_flatMap.mpr ⟨x, hx, by simp [hc, RecvCase.buffer2weightCopyInfos]⟩⟩
  | freeRider y => exact .inr ⟨y, List.mem_flatMap.mpr ⟨x, hx, by simp [hc, RecvCase.buffer2weightCopyInfos]⟩⟩
  | sameNode s => exact .inr ⟨x, List.mem_flatMap.mpr ⟨x, hx, by simp [hc, RecvCase.buffer2weightCopyInfos]⟩⟩
  | crossNode s => exact .inr ⟨x, List.mem_flatMap.mpr ⟨x, hx, by simp [hc, RecvCase.buffer2weightCopyInfos]⟩⟩

end LayerUpdate

/-! ## The ranks and their memories -/

/-- The arguments of `_update_expert_weights_raw` on all ranks. The maps are those of the old and the new
metadata, by layer. -/
structure WeightUpdate where
  oldPhysicalToLogicalMap : ℕ → ℕ → ℤ
  newPhysicalToLogicalMap : ℕ → ℕ → ℤ
  updateLayerIds : List ℕ
  nnodes : ℕ
  worldSize : ℕ
  numLocalPhysicalExperts : ℕ
  numTensors : ℕ

/-- The weights of a rank, `routed_experts_weights_of_layer[layer][tensor][location]`, and its temporary
buffers, which all layers share. -/
structure RankMemory (V : Type) where
  weights : ℕ → ℕ → ℕ → V
  tempBuffers : ℕ → ℕ → V

namespace WeightUpdate

variable (w : WeightUpdate)

/-- The update of a layer. -/
def layerUpdate (layer : ℕ) : LayerUpdate where
  oldPhysicalToLogicalMap := w.oldPhysicalToLogicalMap layer
  newPhysicalToLogicalMap := w.newPhysicalToLogicalMap layer
  numPhysicalExperts := w.worldSize * w.numLocalPhysicalExperts
  numLocalPhysicalExperts := w.numLocalPhysicalExperts
  numGpuPerNode := w.worldSize / w.nnodes
  numTensors := w.numTensors

/-- What a rank does in a layer, where that does not raise. -/
def program (layer rank : ℕ) : LayerProgram :=
  match (w.layerUpdate layer).updateExpertWeightsSingleLayer rank with
  | .ok p => p
  | .error _ => ⟨[], [], []⟩

section Memory

variable {V : Type}

/-- `_get_local_expert_location`. -/
def localLocation (expertLocation : ℕ) : ℕ := expertLocation % w.numLocalPhysicalExperts

/-- The copy of the weights of a location to the temporary buffers of another, for all tensors. -/
def copyToBuffer (layer : ℕ) (m : RankMemory V) (copy : ℕ × ℕ) : RankMemory V where
  weights := m.weights
  tempBuffers := fun i x =>
    if i < w.numTensors ∧ x = w.localLocation copy.2 then m.weights layer i (w.localLocation copy.1)
    else m.tempBuffers i x

/-- A step of `_execute_buffer2weight_copies`. -/
def copyToWeights (layer : ℕ) (m : RankMemory V) (copy : ℕ × ℕ) : RankMemory V where
  weights := fun l i x =>
    if l = layer ∧ i < w.numTensors ∧ x = w.localLocation copy.2 then
      m.tempBuffers i (w.localLocation copy.1)
    else m.weights l i x
  tempBuffers := m.tempBuffers

/-- A message is received to the temporary buffer of a location. -/
def receive (message : ℕ × ℕ) (v : V) (m : RankMemory V) : RankMemory V where
  weights := m.weights
  tempBuffers := fun i x => if i = message.1 ∧ x = w.localLocation message.2 then v else m.tempBuffers i x

/-- The layer that is updated in a round. -/
def layerAt (k : ℕ) : ℕ := w.updateLayerIds.getD k 0

/-- The copies with which a rank begins a round, if there is one. -/
def start (k rank : ℕ) (m : RankMemory V) : RankMemory V :=
  if k < w.updateLayerIds.length then
    (w.program (w.layerAt k) rank).tempCopies.foldl (w.copyToBuffer (w.layerAt k)) m
  else m

/-- The copies with which a rank ends a round. -/
def stop (k rank : ℕ) (m : RankMemory V) : RankMemory V :=
  (w.program (w.layerAt k) rank).buffer2weightCopyInfos.foldl (w.copyToWeights (w.layerAt k)) m

/-- The rounds of the ranks. After the operations of a layer a rank goes on with the copies at the
beginning of the next one. -/
def plan (V : Type) : Plan (Fin w.worldSize) (RankMemory V) V where
  rounds := w.updateLayerIds.length
  sends k r d := ((w.program (w.layerAt k) r).p2pOps.filterMap (·.sendTo? d)).map fun message m =>
    m.weights (w.layerAt k) message.1 (w.localLocation message.2)
  recvs k r s := ((w.program (w.layerAt k) r).p2pOps.filterMap (·.recvFrom? s)).map w.receive
  finish k r m := w.start (k + 1) r (w.stop k r m)

end Memory

/-- The update can be made: there is a node, and in every layer every expert that is needed is somewhere. -/
structure WellFormed : Prop where
  nodup : w.updateLayerIds.Nodup
  nnodes_pos : 0 < w.nnodes
  nnodes_le : w.nnodes ≤ w.worldSize
  covered : ∀ l ∈ w.updateLayerIds, ∀ p < w.worldSize * w.numLocalPhysicalExperts,
    ∃ q < w.worldSize * w.numLocalPhysicalExperts,
      w.oldPhysicalToLogicalMap l q = w.newPhysicalToLogicalMap l p

/-! ## Copies between buffers and weights -/

section Copies

variable {V : Type} {w} {layer : ℕ} {copies : List (ℕ × ℕ)} {value : ℕ → ℕ → V}

theorem copyToBuffer_tempBuffers (m : RankMemory V) (c : ℕ × ℕ) (i y : ℕ) :
    (w.copyToBuffer layer m c).tempBuffers i y =
      if i < w.numTensors ∧ y = w.localLocation c.2 then m.weights layer i (w.localLocation c.1)
      else m.tempBuffers i y := rfl

theorem copyToWeights_weights (m : RankMemory V) (c : ℕ × ℕ) (l i y : ℕ) :
    (w.copyToWeights layer m c).weights l i y =
      if l = layer ∧ i < w.numTensors ∧ y = w.localLocation c.2 then m.tempBuffers i (w.localLocation c.1)
      else m.weights l i y := rfl

theorem receive_tempBuffers (message : ℕ × ℕ) (v : V) (m : RankMemory V) (i y : ℕ) :
    (w.receive message v m).tempBuffers i y =
      if i = message.1 ∧ y = w.localLocation message.2 then v else m.tempBuffers i y := rfl

/-- Copies of the right weights leave the right buffers. -/
theorem foldl_copyToBuffer {m : RankMemory V} (h : ∀ c ∈ copies, ∀ i < w.numTensors,
      m.weights layer i (w.localLocation c.1) = value i (w.localLocation c.2)) :
    (copies.foldl (w.copyToBuffer layer) m).weights = m.weights ∧ ∀ i < w.numTensors, ∀ y,
      (m.tempBuffers i y = value i y ∨ ∃ c ∈ copies, w.localLocation c.2 = y) →
        (copies.foldl (w.copyToBuffer layer) m).tempBuffers i y = value i y := by
  induction copies generalizing m with
  | nil => exact ⟨rfl, fun i _ y hy => hy.elim id fun hc => absurd hc (by simp)⟩
  | cons c copies ih =>
    obtain ⟨hweights, htemp⟩ := @ih (w.copyToBuffer layer m c) fun c' hc' => h c' (by simp [hc'])
    refine ⟨hweights, fun i hi y hy => htemp i hi y ?_⟩
    by_cases hcy : y = w.localLocation c.2
    · left
      rw [copyToBuffer_tempBuffers, if_pos ⟨hi, hcy⟩, hcy]
      exact h c (by simp) i hi
    · rcases hy with hy | ⟨c', hc', hy⟩
      · left
        rw [copyToBuffer_tempBuffers, if_neg fun hc => hcy hc.2]
        exact hy
      · rcases List.mem_cons.mp hc' with rfl | hc'
        · exact absurd hy.symm hcy
        · exact .inr ⟨c', hc', hy⟩

/-- Copies of the right buffers leave the right weights, and the other layers alone. -/
theorem foldl_copyToWeights {m : RankMemory V} (h : ∀ c ∈ copies, ∀ i < w.numTensors,
      m.tempBuffers i (w.localLocation c.1) = value i (w.localLocation c.2)) :
    (∀ l, l ≠ layer → (copies.foldl (w.copyToWeights layer) m).weights l = m.weights l) ∧
      ∀ i < w.numTensors, ∀ y, (m.weights layer i y = value i y ∨ ∃ c ∈ copies, w.localLocation c.2 = y) →
        (copies.foldl (w.copyToWeights layer) m).weights layer i y = value i y := by
  induction copies generalizing m with
  | nil => exact ⟨fun l _ => rfl, fun i _ y hy => hy.elim id fun hc => absurd hc (by simp)⟩
  | cons c copies ih =>
    obtain ⟨hother, hweights⟩ := @ih (w.copyToWeights layer m c) fun c' hc' => h c' (by simp [hc'])
    refine ⟨fun l hl => (hother l hl).trans ?_, fun i hi y hy => hweights i hi y ?_⟩
    · funext i y
      rw [copyToWeights_weights, if_neg fun hc => hl hc.1]
    by_cases hcy : y = w.localLocation c.2
    · left
      rw [copyToWeights_weights, if_pos ⟨rfl, hi, hcy⟩, hcy]
      exact h c (by simp) i hi
    · rcases hy with hy | ⟨c', hc', hy⟩
      · left
        rw [copyToWeights_weights, if_neg fun hc => hcy hc.2.2]
        exact hy
      · rcases List.mem_cons.mp hc' with rfl | hc'
        · exact absurd hy.symm hcy
        · exact .inr ⟨c', hc', hy⟩

end Copies

variable {w}

theorem WellFormed.layerUpdate (h : w.WellFormed) {l : ℕ} (hl : l ∈ w.updateLayerIds) :
    (w.layerUpdate l).WellFormed w.worldSize where
  numPhysicalExperts_eq := rfl
  numGpuPerNode_pos := Nat.div_pos h.nnodes_le h.nnodes_pos
  covered := h.covered l hl

/-! ## The contract -/

section Contract

variable {V : Type} (w) (expertWeights : ℕ → ℕ → ℤ → V) (memory : Fin w.worldSize → RankMemory V)

/-- The weights that a location of a rank needs. -/
def needed (layer rank i y : ℕ) : V :=
  expertWeights layer i (w.newPhysicalToLogicalMap layer (rank * w.numLocalPhysicalExperts + y))

/-- The messages of a rank to another in a layer. -/
def messagesTo (layer rank d : ℕ) : List (ℕ × ℕ) := (w.program layer rank).p2pOps.filterMap (·.sendTo? d)

/-- The messages that a rank waits for from another in a layer. -/
def messagesFrom (layer rank s : ℕ) : List (ℕ × ℕ) := (w.program layer rank).p2pOps.filterMap (·.recvFrom? s)

/-- What holds of the memory of a rank in the round `k` after `n s` messages from each rank `s`. -/
structure RoundInv (k : ℕ) (r : Fin w.worldSize) (n : Fin w.worldSize → ℕ) (m : RankMemory V) : Prop where
  pending : ∀ l ∈ w.updateLayerIds.drop k, ∀ i < w.numTensors, ∀ y < w.numLocalPhysicalExperts,
    m.weights l i y = expertWeights l i
      (w.oldPhysicalToLogicalMap l (r * w.numLocalPhysicalExperts + y))
  updated : ∀ l ∈ w.updateLayerIds.take k, ∀ i < w.numTensors, ∀ y < w.numLocalPhysicalExperts,
    m.weights l i y = w.needed expertWeights l r i y
  others : ∀ l ∉ w.updateLayerIds, m.weights l = (memory r).weights l
  copied : k < w.updateLayerIds.length → ∀ c ∈ (w.program (w.layerAt k) r).tempCopies, ∀ i < w.numTensors,
    m.tempBuffers i (w.localLocation c.2) = w.needed expertWeights (w.layerAt k) r i (w.localLocation c.2)
  received : k < w.updateLayerIds.length → ∀ s : Fin w.worldSize, ∀ message ∈
    (w.messagesFrom (w.layerAt k) r s).take (n s), m.tempBuffers message.1 (w.localLocation message.2) =
      w.needed expertWeights (w.layerAt k) r message.1 (w.localLocation message.2)

variable {w expertWeights memory}

theorem mem_messagesTo {layer rank d : ℕ} {message : ℕ × ℕ} (h : message ∈ w.messagesTo layer rank d) :
    P2POp.isend message.1 message.2 d ∈ (w.program layer rank).p2pOps := by
  obtain ⟨op, hop, hmessage⟩ := List.mem_filterMap.mp h
  rwa [P2POp.eq_of_sendTo?_eq_some hmessage] at hop

theorem mem_messagesFrom {layer rank s : ℕ} {message : ℕ × ℕ} (h : message ∈ w.messagesFrom layer rank s) :
    P2POp.irecv message.1 message.2 s ∈ (w.program layer rank).p2pOps := by
  obtain ⟨op, hop, hmessage⟩ := List.mem_filterMap.mp h
  rwa [P2POp.eq_of_recvFrom?_eq_some hmessage] at hop

theorem WellFormed.program_eq (h : w.WellFormed) {l rank : ℕ} (hl : l ∈ w.updateLayerIds)
    (hrank : rank < w.worldSize) :
    (w.layerUpdate l).updateExpertWeightsSingleLayer rank = .ok (w.program l rank) := by
  obtain ⟨infos, -, -, -, hprogram⟩ := (h.layerUpdate hl).exists_program hrank
  rw [program, hprogram]

/-- The location of a local index. -/
theorem add_localLocation {rank x : ℕ} {l : ℕ} (hx : x ∈ (w.layerUpdate l).localExpertLocations rank) :
    rank * w.numLocalPhysicalExperts + w.localLocation x = x ∧
      w.localLocation x < w.numLocalPhysicalExperts := by
  obtain ⟨hlow, hhigh⟩ := LayerUpdate.mem_localExpertLocations.mp hx
  rw [layerUpdate] at hlow hhigh
  dsimp only at hlow hhigh
  obtain ⟨y, rfl⟩ := Nat.exists_eq_add_of_le hlow
  have hy : y < w.numLocalPhysicalExperts := by omega
  rw [localLocation, Nat.mul_add_mod_of_lt hy]
  exact ⟨rfl, hy⟩

theorem layerAt_mem_drop {k : ℕ} (hk : k < w.updateLayerIds.length) :
    w.layerAt k ∈ w.updateLayerIds.drop k := by
  rw [layerAt, List.getD_eq_getElem _ _ hk, List.drop_eq_getElem_cons hk]
  exact List.mem_cons_self

theorem layerAt_mem {k : ℕ} (hk : k < w.updateLayerIds.length) : w.layerAt k ∈ w.updateLayerIds :=
  List.mem_of_mem_drop (layerAt_mem_drop hk)

/-- The operations of a program are on the locations of the rank. -/
theorem WellFormed.op_spec (h : w.WellFormed) {l rank : ℕ} (hl : l ∈ w.updateLayerIds)
    (hrank : rank < w.worldSize) {op : P2POp} (hop : op ∈ (w.program l rank).p2pOps) :
    op.location ∈ (w.layerUpdate l).localExpertLocations rank ∧ op.tensor < w.numTensors := by
  obtain ⟨-, -, infos, hinfos, hops⟩ := (h.layerUpdate hl).program_eq hrank (h.program_eq hl hrank)
  rw [hops] at hop
  exact ((h.layerUpdate hl).op_spec hrank hinfos hop).2

/-- The weights that are sent are those that are needed, in the same order. -/
theorem WellFormed.map_messagesTo (h : w.WellFormed) {l s d : ℕ} (hl : l ∈ w.updateLayerIds)
    (hs : s < w.worldSize) (hd : d < w.worldSize) :
    ((w.messagesTo l s d).map fun message =>
        expertWeights l message.1 (w.oldPhysicalToLogicalMap l message.2)) =
      (w.messagesFrom l d s).map fun message =>
        w.needed expertWeights l d message.1 (w.localLocation message.2) := by
  have hmatch := (h.layerUpdate hl).sent_eq_received hs hd (h.program_eq hl hs) (h.program_eq hl hd)
  have hvalues := congrArg (List.map fun m => expertWeights l m.1 m.2) hmatch
  rw [List.map_map, List.map_map] at hvalues
  refine hvalues.trans (List.map_congr_left fun message hmessage => ?_)
  have hloc := (add_localLocation (h.op_spec hl hd (mem_messagesFrom hmessage)).1).1
  rw [needed]
  exact congrArg (fun x => expertWeights l message.1 (w.newPhysicalToLogicalMap l x)) hloc.symm

theorem RoundInv.send (h : w.WellFormed) {k : ℕ} (hk : k < w.updateLayerIds.length) {r : Fin w.worldSize}
    {n : Fin w.worldSize → ℕ} {m : RankMemory V} (hinv : w.RoundInv expertWeights memory k r n m) {d : ℕ}
    {message : ℕ × ℕ} (hmessage : message ∈ w.messagesTo (w.layerAt k) r d) :
    m.weights (w.layerAt k) message.1 (w.localLocation message.2) =
      expertWeights (w.layerAt k) message.1 (w.oldPhysicalToLogicalMap (w.layerAt k) message.2) := by
  obtain ⟨hloc, htensor⟩ := h.op_spec (layerAt_mem hk) r.isLt (mem_messagesTo hmessage)
  obtain ⟨hadd, hlt⟩ := add_localLocation hloc
  have hweights := hinv.pending _ (layerAt_mem_drop hk) _ htensor _ hlt
  exact hweights.trans (congrArg (fun x => expertWeights _ _ (w.oldPhysicalToLogicalMap _ x)) hadd)

theorem RoundInv.recv {k : ℕ} {r s : Fin w.worldSize} {n : Fin w.worldSize → ℕ} {m : RankMemory V}
    (hinv : w.RoundInv expertWeights memory k r n m) {message : ℕ × ℕ}
    (hmessage : (w.messagesFrom (w.layerAt k) r s)[n s]? = some message) :
    w.RoundInv expertWeights memory k r (Function.update n s (n s + 1))
      (w.receive message
        (w.needed expertWeights (w.layerAt k) r message.1 (w.localLocation message.2)) m) := by
  -- a buffer that is written has the weights that its location needs, whichever message it was
  have hwrite : ∀ i y, m.tempBuffers i y = w.needed expertWeights (w.layerAt k) r i y →
      (w.receive message (w.needed expertWeights (w.layerAt k) r message.1
        (w.localLocation message.2)) m).tempBuffers i y = w.needed expertWeights (w.layerAt k) r i y := by
    intro i y hy
    rw [receive_tempBuffers]
    split
    · rename_i heq
      rw [heq.1, heq.2]
    · exact hy
  refine { hinv with copied := fun hk c hc i hi => hwrite _ _ (hinv.copied hk c hc i hi)
                     received := fun hk s' message' hmem => ?_ }
  by_cases hs : s' = s
  · subst hs
    rw [Function.update_self, List.take_add_one, List.mem_append, hmessage] at hmem
    rcases hmem with hmem | hmem
    · exact hwrite _ _ (hinv.received hk s' message' hmem)
    · obtain rfl : message' = message := by simpa using hmem
      rw [receive_tempBuffers, if_pos ⟨rfl, rfl⟩]
  · rw [Function.update_of_ne hs] at hmem
    exact hwrite _ _ (hinv.received hk s' message' hmem)

theorem needed_localLocation {l rank x : ℕ} (hx : x ∈ (w.layerUpdate l).localExpertLocations rank) (i : ℕ) :
    w.needed expertWeights l rank i (w.localLocation x) =
      expertWeights l i (w.newPhysicalToLogicalMap l x) := by
  rw [needed, (add_localLocation hx).1]

/-- The copies at the beginning of a round. -/
theorem RoundInv.start (h : w.WellFormed) {k : ℕ} {r : Fin w.worldSize} {m : RankMemory V}
    (hpending : ∀ l ∈ w.updateLayerIds.drop k, ∀ i < w.numTensors, ∀ y < w.numLocalPhysicalExperts,
      m.weights l i y = expertWeights l i
        (w.oldPhysicalToLogicalMap l (r * w.numLocalPhysicalExperts + y)))
    (hupdated : ∀ l ∈ w.updateLayerIds.take k, ∀ i < w.numTensors, ∀ y < w.numLocalPhysicalExperts,
      m.weights l i y = w.needed expertWeights l r i y)
    (hothers : ∀ l ∉ w.updateLayerIds, m.weights l = (memory r).weights l) :
    w.RoundInv expertWeights memory k r (fun _ => 0) (w.start k r m) := by
  by_cases hk : k < w.updateLayerIds.length
  · have hl := layerAt_mem hk
    have hcopies : ∀ c ∈ (w.program (w.layerAt k) r).tempCopies, ∀ i < w.numTensors,
        m.weights (w.layerAt k) i (w.localLocation c.1) =
          w.needed expertWeights (w.layerAt k) r i (w.localLocation c.2) := by
      intro c hc i hi
      obtain ⟨hsrc, hdst, heq⟩ := (h.layerUpdate hl).of_mem_tempCopies r.isLt (h.program_eq hl r.isLt) hc
      obtain ⟨hadd, hlt⟩ := add_localLocation hsrc
      rw [hpending _ (layerAt_mem_drop hk) i hi _ hlt, hadd, needed_localLocation hdst]
      exact congrArg _ heq
    obtain ⟨hweights, htemp⟩ := foldl_copyToBuffer hcopies
    rw [WeightUpdate.start, if_pos hk]
    refine ⟨?_, ?_, ?_, fun _ c hc i hi => htemp i hi _ (.inr ⟨c, hc, rfl⟩), fun _ s message hmem => ?_⟩
    · rwa [hweights]
    · rwa [hweights]
    · rwa [hweights]
    · simp at hmem
  · rw [WeightUpdate.start, if_neg hk]
    exact ⟨hpending, hupdated, hothers, fun hk' => absurd hk' hk, fun hk' => absurd hk' hk⟩

/-- The copies at the end of a round, and those at the beginning of the next one. -/
theorem RoundInv.finish (h : w.WellFormed) {k : ℕ} (hk : k < w.updateLayerIds.length) {r : Fin w.worldSize}
    {n : Fin w.worldSize → ℕ} {m : RankMemory V} (hinv : w.RoundInv expertWeights memory k r n m)
    (hall : ∀ s : Fin w.worldSize, n s = (w.messagesFrom (w.layerAt k) r s).length) :
    w.RoundInv expertWeights memory (k + 1) r (fun _ => 0) (w.start (k + 1) r (w.stop k r m)) := by
  have hl := layerAt_mem hk
  have hprogram := h.program_eq hl r.isLt
  have hcopies : ∀ c ∈ (w.program (w.layerAt k) r).buffer2weightCopyInfos, ∀ i < w.numTensors,
      m.tempBuffers i (w.localLocation c.1) =
        w.needed expertWeights (w.layerAt k) r i (w.localLocation c.2) := by
    intro c hc i hi
    obtain ⟨hsrc, hdst, heq, hfilled⟩ :=
      (h.layerUpdate hl).of_mem_buffer2weightCopyInfos r.isLt hprogram hc
    have hneeded : w.needed expertWeights (w.layerAt k) r i (w.localLocation c.1) =
        w.needed expertWeights (w.layerAt k) r i (w.localLocation c.2) := by
      rw [needed_localLocation hsrc, needed_localLocation hdst]
      exact congrArg _ heq
    rw [← hneeded]
    rcases hfilled with ⟨x, hx⟩ | ⟨s, hs, hmessages⟩
    · exact hinv.copied hk _ hx i hi
    · refine hinv.received hk ⟨s, hs⟩ (i, c.1) ?_
      rw [hall ⟨s, hs⟩, List.take_length]
      exact hmessages i hi
  obtain ⟨hother, hweights⟩ := foldl_copyToWeights hcopies
  have hsplit : w.updateLayerIds.drop k = w.layerAt k :: w.updateLayerIds.drop (k + 1) := by
    rw [layerAt, List.getD_eq_getElem _ _ hk, List.drop_eq_getElem_cons hk]
  have hfresh : w.layerAt k ∉ w.updateLayerIds.drop (k + 1) :=
    (List.nodup_cons.mp (hsplit ▸ h.nodup.sublist (List.drop_sublist k _))).1
  refine RoundInv.start h (fun l hmem i hi y hy => ?_) (fun l hmem i hi y hy => ?_) fun l hmem => ?_
  · have hne : l ≠ w.layerAt k := fun heq => hfresh (heq ▸ hmem)
    rw [stop, hother l hne]
    exact hinv.pending l (hsplit ▸ List.mem_cons_of_mem _ hmem) i hi y hy
  · rw [List.take_add_one, List.mem_append, List.getElem?_eq_getElem hk, Option.mem_toList,
      Option.some.injEq] at hmem
    have hlayer : w.updateLayerIds.get ⟨k, hk⟩ = w.layerAt k := (List.getD_eq_getElem _ _ hk).symm
    by_cases hne : l = w.layerAt k
    · subst hne
      refine hweights i hi y ?_
      -- a location of the rank either had its expert or is copied
      have hx : r * w.numLocalPhysicalExperts + y ∈
          (w.layerUpdate (w.layerAt k)).localExpertLocations r := by
        rw [LayerUpdate.mem_localExpertLocations]
        exact ⟨Nat.le_add_right _ _, Nat.add_lt_add_left hy _⟩
      rcases (h.layerUpdate hl).exists_copy r.isLt hprogram hx with heq | ⟨src, hsrc⟩
      · left
        rw [hinv.pending _ (layerAt_mem_drop hk) i hi y hy, needed]
        exact congrArg _ heq
      · refine .inr ⟨_, hsrc, ?_⟩
        exact Nat.mul_add_mod_of_lt hy
    · rw [stop, hother l hne]
      exact hinv.updated l (hmem.resolve_right fun heq => hne (heq.symm.trans hlayer)) i hi y hy
  · rw [stop, hother l fun heq => hmem (heq ▸ hl)]
    exact hinv.others l hmem

/-- Every location has the weights of its expert. -/
def contract (h : w.WellFormed) (expertWeights : ℕ → ℕ → ℤ → V) (memory : Fin w.worldSize → RankMemory V) :
    Contract (w.plan V) where
  value k s d := (w.messagesTo (w.layerAt k) s d).map fun message =>
    expertWeights (w.layerAt k) message.1 (w.oldPhysicalToLogicalMap (w.layerAt k) message.2)
  Holds := w.RoundInv expertWeights memory
  length_sends k _ r d := by
    rw [List.length_map]
    exact List.length_map _
  length_recvs k hk r s := by
    rw [h.map_messagesTo (layerAt_mem hk) s.isLt r.isLt, List.length_map]
    exact List.length_map _
  send k hk r n m d i read hinv hread := by
    have hmap : ((w.messagesTo (w.layerAt k) r d).map fun message (m : RankMemory V) =>
      m.weights (w.layerAt k) message.1 (w.localLocation message.2))[i]? = some read := hread
    rw [List.getElem?_map] at hmap ⊢
    obtain ⟨message, hmessage, rfl⟩ := Option.map_eq_some_iff.mp hmap
    rw [hmessage, Option.map_some]
    exact congrArg some (RoundInv.send h hk hinv (List.mem_of_getElem? hmessage)).symm
  recv k hk r n m s write v hinv hwrite hv := by
    have hmap : ((w.messagesFrom (w.layerAt k) r s).map w.receive)[n s]? = some write := hwrite
    rw [List.getElem?_map] at hmap
    obtain ⟨message, hmessage, rfl⟩ := Option.map_eq_some_iff.mp hmap
    rw [h.map_messagesTo (layerAt_mem hk) s.isLt r.isLt, List.getElem?_map, hmessage, Option.map_some,
      Option.some.injEq] at hv
    subst hv
    exact hinv.recv hmessage
  finish k hk r n m hinv hall := RoundInv.finish h hk hinv fun s => by
    rw [hall s]
    exact List.length_map _

end Contract

/-! ## Every interleaving -/

section Runs

variable {V : Type} (expertWeights : ℕ → ℕ → ℤ → V) (memory : Fin w.worldSize → RankMemory V)

/-- Every location of the layers to update has the weights of its expert under a map. -/
def HasWeights (map : ℕ → ℕ → ℤ) : Prop :=
  ∀ r, ∀ l ∈ w.updateLayerIds, ∀ i < w.numTensors, ∀ y < w.numLocalPhysicalExperts,
    (memory r).weights l i y = expertWeights l i (map l (r * w.numLocalPhysicalExperts + y))

/-- The ranks at the beginning of the first layer. -/
def initial : State (Fin w.worldSize) (RankMemory V) V := .init fun r => w.start 0 r (memory r)

variable {expertWeights memory}

theorem WellFormed.holds_initial (h : w.WellFormed)
    (hold : HasWeights expertWeights memory w.oldPhysicalToLogicalMap) (r : Fin w.worldSize) :
    (contract h expertWeights memory).Holds 0 r (fun _ => 0) (w.start 0 r (memory r)) :=
  RoundInv.start h (fun l hl i hi y hy => hold r l (by simpa using hl) i hi y hy) (by simp) fun _ _ => rfl

/-- When all ranks are through, every location has the weights of its new expert. -/
theorem WellFormed.of_done (h : w.WellFormed)
    (hold : HasWeights expertWeights memory w.oldPhysicalToLogicalMap)
    {events : List (Event (Fin w.worldSize))} {s : State (Fin w.worldSize) (RankMemory V) V}
    (hrun : run (w.plan V) (initial memory) events = some s) (hdone : s.Done (w.plan V)) :
    HasWeights expertWeights s.memory w.newPhysicalToLogicalMap ∧
      ∀ r, ∀ l ∉ w.updateLayerIds, (s.memory r).weights l = (memory r).weights l := by
  have hinv := Contract.holds_of_done (h.holds_initial hold) hrun hdone
  refine ⟨fun r l hl i hi y hy => ?_, fun r l hl => (hinv r).others l hl⟩
  exact (hinv r).updated l (by rwa [plan, List.take_length]) i hi y hy

/-- **The weights are exchanged in every interleaving.** Suppose that every location of every layer to
update has the weights of its old expert, and that every expert that is needed is somewhere. Then no rank
raises. However the operations of the ranks interleave, something can happen until all ranks are through,
which they are after a fixed number of steps, and then every location has the weights of its new expert and
the other layers are as they were. -/
theorem weights_exchanged (h : w.WellFormed)
    (hold : HasWeights expertWeights memory w.oldPhysicalToLogicalMap) :
    (∀ l ∈ w.updateLayerIds, ∀ r < w.worldSize,
      (w.layerUpdate l).updateExpertWeightsSingleLayer r = .ok (w.program l r)) ∧
    ∀ events s, run (w.plan V) (initial memory) events = some s →
      (¬ s.Done (w.plan V) → ∃ e, (step (w.plan V) s e).isSome) ∧
      events.length ≤ (w.plan V).totalSteps ∧ (events.length = (w.plan V).totalSteps ↔ s.Done (w.plan V)) ∧
      (s.Done (w.plan V) → HasWeights expertWeights s.memory w.newPhysicalToLogicalMap ∧
        ∀ r, ∀ l ∉ w.updateLayerIds, (s.memory r).weights l = (memory r).weights l) := by
  refine ⟨fun l hl r hr => h.program_eq hl hr, fun events s hrun => ⟨fun hs => ?_, ?_⟩⟩
  · exact Contract.progress (Contract.inv_run (Contract.inv_init (h.holds_initial hold)) hrun) hs
  · obtain ⟨hle, hiff⟩ := Contract.length_run (h.holds_initial hold) hrun
    exact ⟨hle, hiff, h.of_done hold hrun⟩

end Runs

/-- The update of `sampleUpdate`, in the second of three layers. -/
def sample : WeightUpdate where
  oldPhysicalToLogicalMap _ := LayerUpdate.sampleUpdate.oldPhysicalToLogicalMap
  newPhysicalToLogicalMap _ := LayerUpdate.sampleUpdate.newPhysicalToLogicalMap
  updateLayerIds := [1]
  nnodes := 1
  worldSize := 2
  numLocalPhysicalExperts := 2
  numTensors := 2

theorem sample_wellFormed : sample.WellFormed where
  nodup := by decide
  nnodes_pos := by decide
  nnodes_le := by decide
  covered := by decide

/-- Every tensor of an expert is its id. -/
def sampleMemory (r : Fin sample.worldSize) : RankMemory ℤ where
  weights _ _ y := r * 2 + y
  tempBuffers _ _ := -1

theorem sampleMemory_hasWeights :
    HasWeights (w := sample) (fun _ _ e => e) sampleMemory sample.oldPhysicalToLogicalMap := by
  intro r l _ i _ y _
  simp [sampleMemory, sample, LayerUpdate.sampleUpdate]

/-- There is a complete run, and it leaves the expert `2` on the second location. -/
theorem weights_exchanged_sample : ∃ events s, run (sample.plan ℤ) (initial sampleMemory) events = some s ∧
    (s.memory ⟨0, by decide⟩).weights 1 0 1 = 2 := by
  obtain ⟨events, s, hrun, hdone⟩ := Contract.exists_run_done
    (Contract.inv_init (sample_wellFormed.holds_initial sampleMemory_hasWeights))
  refine ⟨events, s, hrun, ?_⟩
  have hweights := ((weights_exchanged sample_wellFormed sampleMemory_hasWeights).2 events s hrun).2.2.2 hdone
  exact hweights.1 ⟨0, by decide⟩ 1 (by decide) 0 (by decide) 1 (by decide)

/-! ## The canary -/

section Canary

variable {V : Type} (w) (canary : ℤ → V) (memory : Fin w.worldSize → RankMemory V)

/-- The update of `_update_expert_weights_with_canary`, which has one tensor more. -/
def withCanary : WeightUpdate := { w with numTensors := w.numTensors + 1 }

/-- The memory with `canary_tensor` as the last tensor of the layers to update: the old ids of the experts of
the rank. -/
def canaryMemory (r : Fin w.worldSize) : RankMemory V where
  weights l i y :=
    if l ∈ w.updateLayerIds ∧ i = w.numTensors then
      canary (w.oldPhysicalToLogicalMap l (r * w.numLocalPhysicalExperts + y))
    else (memory r).weights l i y
  tempBuffers := (memory r).tempBuffers

variable {w canary memory} {expertWeights : ℕ → ℕ → ℤ → V}

theorem canaryMemory_hasWeights (hold : HasWeights expertWeights memory w.oldPhysicalToLogicalMap) :
    HasWeights (w := w.withCanary) (fun l i e => if i = w.numTensors then canary e else expertWeights l i e)
      (w.canaryMemory canary memory) w.oldPhysicalToLogicalMap := by
  intro r l hl i hi y hy
  have hl : l ∈ w.updateLayerIds := hl
  have hi : i < w.numTensors + 1 := hi
  simp only [canaryMemory]
  by_cases hlast : i = w.numTensors
  · rw [if_pos ⟨hl, hlast⟩, if_pos hlast]
    rfl
  · rw [if_neg fun hc => hlast hc.2, if_neg hlast]
    exact hold r l hl i (by omega) y hy

/-- **The canary survives.** In every interleaving of an update with a canary, when all ranks are through,
the canary of every rank has the ids of the new map, so that the assertion holds, and the tensors of the
model are as after the update without a canary. -/
theorem canary_survives (h : w.WellFormed)
    (hold : HasWeights expertWeights memory w.oldPhysicalToLogicalMap)
    {events : List (Event (Fin w.worldSize))} {s : State (Fin w.worldSize) (RankMemory V) V}
    (hrun : run (w.withCanary.plan V) (initial (w := w.withCanary) (w.canaryMemory canary memory)) events =
      some s) (hdone : s.Done (w.withCanary.plan V)) :
    (∀ r, ∀ l ∈ w.updateLayerIds, ∀ y < w.numLocalPhysicalExperts,
      (s.memory r).weights l w.numTensors y =
        canary (w.newPhysicalToLogicalMap l (r * w.numLocalPhysicalExperts + y))) ∧
      HasWeights expertWeights s.memory w.newPhysicalToLogicalMap := by
  have hformed : w.withCanary.WellFormed := { h with }
  obtain ⟨hweights, -⟩ := hformed.of_done (canaryMemory_hasWeights hold) hrun hdone
  constructor
  · intro r l hl y hy
    exact (hweights r l hl w.numTensors (Nat.lt_succ_self _) y hy).trans (if_pos rfl)
  · intro r l hl i hi y hy
    exact (hweights r l hl i (Nat.lt_succ_of_lt hi) y hy).trans (if_neg hi.ne)

theorem canary_survives_sample : ∃ events s,
    run (sample.withCanary.plan ℤ)
      (initial (w := sample.withCanary) (sample.canaryMemory id sampleMemory)) events = some s ∧
    (s.memory ⟨0, by decide⟩).weights 1 2 1 = 2 := by
  have hformed : sample.withCanary.WellFormed := { sample_wellFormed with }
  have hstart := @canaryMemory_hasWeights sample ℤ id _ _ sampleMemory_hasWeights
  obtain ⟨events, s, hrun, hdone⟩ := Contract.exists_run_done
    (Contract.inv_init (hformed.holds_initial hstart))
  refine ⟨events, s, hrun, ?_⟩
  exact (canary_survives sample_wellFormed sampleMemory_hasWeights hrun hdone).1 ⟨0, by decide⟩ 1
    (by decide) 1 (by decide)

end Canary

end WeightUpdate

end MoeSpecialization.Eplb
