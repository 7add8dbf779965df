import MoeSpecialization.Common.TensorIndex
import Mathlib.Algebra.BigOperators.Group.List.Basic
import Mathlib.Algebra.GroupWithZero.Nat
import Mathlib.Data.List.Perm.Subperm
import Mathlib.Data.List.Forall2
import Mathlib.Data.List.GetD

/-!
# The nearest physical expert

Reference: `_find_nearest_expert`, `_fair_choices`, `_logical_to_all_physical_raw` and
`compute_logical_to_rank_dispatch_physical_map` in `sglang/srt/eplb/expert_location.py`.

With static dispatch every rank sends the tokens of a logical expert to one physical expert: to one on its
own GPU if there is one, else to one on its node, and else to a random one. The random generator is a
parameter. Whatever it returns, the ranks without an expert on their node are spread evenly over the
candidates (`dispatch_nearest_or_fair`).
-/

namespace MoeSpecialization.Eplb

open Py

/-- The sizes that tell where a physical expert is. -/
structure Topology where
  numLocalGpuPhysicalExperts : ℕ
  numGpusPerNode : ℕ

namespace Topology

/-- `num_local_node_physical_experts`. -/
def numLocalNodePhysicalExperts (t : Topology) : ℕ := t.numLocalGpuPhysicalExperts * t.numGpusPerNode

/-- `_compute_gpu_id_of_physical_expert`. -/
def gpuId (t : Topology) (p : ℤ) : ℤ := p / t.numLocalGpuPhysicalExperts

/-- `_compute_node_id_of_physical_expert`. -/
def nodeId (t : Topology) (p : ℤ) : ℤ := p / t.numLocalNodePhysicalExperts

/-- The node of a rank. -/
def nodeRank (t : Topology) (rank : ℕ) : ℕ := rank / t.numGpusPerNode

end Topology

/-- `_find_nearest_expert`. -/
def findNearestExpert (t : Topology) (candidates : List ℤ) (moeEpRank : ℕ) : Except Error ℤ :=
  if candidates.length = 1 then .ok (candidates.headD 0)
  else if candidates ≠ [] ∧ t.numLocalGpuPhysicalExperts = 0 then .error .zeroDivisionError
  else match candidates.filter fun p => t.gpuId p = moeEpRank with
    | p :: _ => .ok p
    | [] =>
      if t.numGpusPerNode = 0 then .error .zeroDivisionError
      else match candidates.filter fun p => t.nodeId p = t.nodeRank moeEpRank with
        | p :: _ => .ok p
        | [] => .ok (-1)

/-- `random.Random`: what its methods return is not known beyond their documentation. -/
structure Random (σ : Type) where
  seed : ℕ → σ
  sample : List ℤ → ℕ → σ → List ℤ × σ
  shuffle : List ℤ → σ → List ℤ × σ
  length_sample : ∀ arr k s, k ≤ arr.length → (sample arr k s).1.length = k
  sample_subperm : ∀ arr k s, k ≤ arr.length → (sample arr k s).1.Subperm arr
  shuffle_perm : ∀ arr s, (shuffle arr s).1.Perm arr

/-- A generator that samples the first entries and does not shuffle. -/
def Random.identity : Random Unit where
  seed _ := ()
  sample arr k _ := (arr.take k, ())
  shuffle arr _ := (arr, ())
  length_sample _ _ _ h := List.length_take_of_le h
  sample_subperm arr k _ _ := (List.take_sublist k arr).subperm
  shuffle_perm arr _ := List.Perm.refl arr

section Definitions

variable {σ : Type} (rng : Random σ)

/-- `_fair_choices`. -/
def fairChoices (arr : List ℤ) (k : ℕ) : PyM σ (List ℤ) := do
  if arr = [] then throw .zeroDivisionError
  let sampled := rng.sample arr (k % arr.length) (← get)
  let ans := rng.shuffle ((List.replicate (k / arr.length) arr).flatten ++ sampled.1) sampled.2
  set ans.2
  return ans.1

/-- `output_partial[output_partial == -1] = choices`. -/
def fillRemaining : List ℤ → List ℤ → List ℤ
  | [], _ => []
  | p :: ps, [] => p :: fillRemaining ps []
  | p :: ps, c :: cs => if p = -1 then c :: fillRemaining ps cs else p :: fillRemaining ps (c :: cs)

/-- `output_partial` of a logical expert: one physical expert for every rank. -/
def dispatchOfRanks (t : Topology) (epSize : ℕ) (candidates : List ℤ) : PyM σ (List ℤ) := do
  let nearest ← (List.range epSize).mapM fun rank => PyM.ofExcept (findNearestExpert t candidates rank)
  let choices ← fairChoices rng candidates (nearest.count (-1))
  return fillRemaining nearest choices

/-- `_logical_to_all_physical_raw`. -/
def logicalToAllPhysicalRaw (logicalToAllPhysicalMap : Tensor3 ℤ) (layer logical : ℕ) : List ℤ :=
  ((List.range logicalToAllPhysicalMap.dim2).map (logicalToAllPhysicalMap.cell layer logical)).filter (· ≠ -1)

/-- `compute_logical_to_rank_dispatch_physical_map`. -/
def computeLogicalToRankDispatchPhysicalMap (serverEpSize nnodes : ℕ) (logicalToAllPhysicalMap : Tensor3 ℤ)
    (epSize numPhysicalExperts epRank seed : ℕ) : Except Error (Mat ℤ) := do
  if epSize = 0 ∨ nnodes = 0 then throw .zeroDivisionError
  let t : Topology := ⟨numPhysicalExperts / epSize, serverEpSize / nnodes⟩
  let loops : PyM σ (List (List (List ℤ))) :=
    (List.range logicalToAllPhysicalMap.dim0).mapM fun layer =>
      (List.range logicalToAllPhysicalMap.dim1).mapM fun logical =>
        dispatchOfRanks rng t epSize (logicalToAllPhysicalRaw logicalToAllPhysicalMap layer logical)
  match loops.run (rng.seed seed) with
  | .error e _ => throw e
  | .ok rows _ =>
    if ¬rows.all fun row => row.all fun ranks => ranks.all (· ≠ -1) then throw .assertionError
    else if epSize ≤ epRank then throw .indexError
    else return ⟨logicalToAllPhysicalMap.dim0, logicalToAllPhysicalMap.dim1, fun layer logical =>
      ((rows.getD layer []).getD logical []).getD epRank (-1)⟩

end Definitions

/-! ## The nearest expert -/

section Nearest

variable {t : Topology} {candidates : List ℤ} {rank : ℕ}

/-- A rank with no candidate on its node. -/
def Remote (t : Topology) (candidates : List ℤ) (rank : ℕ) : Prop :=
  ∀ p ∈ candidates, t.nodeId p ≠ t.nodeRank rank

instance : Decidable (Remote t candidates rank) :=
  inferInstanceAs (Decidable (∀ p ∈ candidates, t.nodeId p ≠ t.nodeRank rank))

theorem mem_of_filter_cons {l rest : List ℤ} {f : ℤ → Bool} {p : ℤ} (h : l.filter f = p :: rest) :
    p ∈ l ∧ f p = true := by
  have hp : p ∈ l.filter f := by
    rw [h]
    exact List.mem_cons_self
  exact List.mem_filter.mp hp

theorem not_of_filter_nil {l : List ℤ} {f : ℤ → Bool} (h : l.filter f = []) {p : ℤ} (hp : p ∈ l) :
    ¬f p = true := List.filter_eq_nil_iff.mp h p hp

/-- A GPU is on one node. -/
theorem nodeId_of_gpuId {p : ℤ} (h : t.gpuId p = rank) : t.nodeId p = t.nodeRank rank := by
  rw [Topology.nodeId, Topology.numLocalNodePhysicalExperts, Int.natCast_mul,
    ← Int.ediv_ediv_of_nonneg (Int.natCast_nonneg _)]
  rw [Topology.gpuId] at h
  rw [h]
  rfl

/-- What `_find_nearest_expert` returns: a candidate as near as there is one, or `-1` where several
candidates are all on other nodes. -/
theorem exists_findNearestExpert (hlocal : 0 < t.numLocalGpuPhysicalExperts) (hgpus : 0 < t.numGpusPerNode)
    (candidates : List ℤ) (rank : ℕ) :
    ∃ p, findNearestExpert t candidates rank = .ok p ∧
      ((p = -1 ∧ candidates.length ≠ 1 ∧ Remote t candidates rank) ∨
        p ∈ candidates ∧ ((∃ q ∈ candidates, t.gpuId q = rank) → t.gpuId p = rank) ∧
          (¬Remote t candidates rank → t.nodeId p = t.nodeRank rank) ∧
          (Remote t candidates rank → candidates.length = 1)) := by
  unfold findNearestExpert
  split
  · rename_i hone
    obtain ⟨p, rfl⟩ := List.length_eq_one_iff.mp hone
    refine ⟨p, rfl, .inr ⟨List.mem_singleton.mpr rfl, ?_, fun hnear => ?_, fun _ => rfl⟩⟩
    · rintro ⟨q, hq, hgpu⟩
      rwa [← List.mem_singleton.mp hq]
    · by_contra hne
      refine hnear fun q hq => ?_
      rwa [List.mem_singleton.mp hq]
  · rename_i hone
    rw [if_neg (by omega)]
    split
    · rename_i p rest hgpu
      obtain ⟨hp, hpgpu⟩ := mem_of_filter_cons hgpu
      have hpgpu := of_decide_eq_true hpgpu
      refine ⟨p, rfl, .inr ⟨hp, fun _ => hpgpu, fun _ => nodeId_of_gpuId hpgpu, fun hremote => ?_⟩⟩
      exact absurd (nodeId_of_gpuId hpgpu) (hremote p hp)
    · rename_i hgpu
      rw [if_neg (by omega)]
      have hno : ¬∃ q ∈ candidates, t.gpuId q = rank := by
        rintro ⟨q, hq, hqgpu⟩
        exact not_of_filter_nil hgpu hq (decide_eq_true hqgpu)
      split
      · rename_i p rest hnode
        obtain ⟨hp, hpnode⟩ := mem_of_filter_cons hnode
        have hpnode := of_decide_eq_true hpnode
        exact ⟨p, rfl, .inr ⟨hp, fun h => absurd h hno, fun _ => hpnode, fun hr => absurd hpnode (hr p hp)⟩⟩
      · rename_i hnode
        refine ⟨-1, rfl, .inl ⟨rfl, hone, fun q hq hqnode => ?_⟩⟩
        exact not_of_filter_nil hnode hq (decide_eq_true hqnode)

end Nearest

/-! ## Fair choices -/

section Fair

variable {σ : Type} (rng : Random σ) {arr : List ℤ}

/-- The choices are as many as asked for, and no candidate is chosen more than once more often than
another. -/
theorem exists_fairChoices (hne : arr ≠ []) (hnodup : arr.Nodup) (k : ℕ) (s : σ) :
    ∃ ans s', (fairChoices rng arr k).run s = .ok ans s' ∧ ans.length = k ∧ (∀ p ∈ ans, p ∈ arr) ∧
      ∀ p ∈ arr, k / arr.length ≤ ans.count p ∧ ans.count p ≤ k / arr.length + 1 := by
  have hrem : k % arr.length ≤ arr.length :=
    (Nat.mod_lt k (List.length_pos_of_ne_nil hne)).le
  have hsub := rng.sample_subperm arr (k % arr.length) s hrem
  have hlen := rng.length_sample arr (k % arr.length) s hrem
  have hperm := rng.shuffle_perm ((List.replicate (k / arr.length) arr).flatten ++
    (rng.sample arr (k % arr.length) s).1) (rng.sample arr (k % arr.length) s).2
  refine ⟨_, _, by rw [fairChoices, if_neg hne]; rfl, ?_, fun p hp => ?_, fun p hp => ?_⟩
  · rw [hperm.length_eq, List.length_append, List.length_flatten, List.map_replicate, List.sum_replicate,
      hlen, Nat.nsmul_eq_mul]
    exact Nat.div_add_mod' k arr.length
  · rcases List.mem_append.mp (hperm.mem_iff.mp hp) with hp | hp
    · obtain ⟨l, hl, hpl⟩ := List.mem_flatten.mp hp
      rwa [List.eq_of_mem_replicate hl] at hpl
    · exact hsub.subset hp
  · have hone : arr.count p = 1 := List.nodup_iff_count_eq_one.mp hnodup p hp
    have hcount := hperm.count_eq p
    rw [List.count_append, List.count_flatten, List.map_replicate, List.sum_replicate, hone,
      Nat.nsmul_eq_mul, Nat.mul_one] at hcount
    have hle := hsub.count_le p
    rw [hone] at hle
    omega

theorem length_fillRemaining (ps choices : List ℤ) : (fillRemaining ps choices).length = ps.length := by
  induction ps generalizing choices with
  | nil => rfl
  | cons p ps ih =>
    rcases choices with _ | ⟨c, cs⟩
    · rw [fillRemaining, List.length_cons, List.length_cons, ih]
    · rw [fillRemaining]
      split
      · rw [List.length_cons, List.length_cons, ih]
      · rw [List.length_cons, List.length_cons, ih]

/-- The entries other than `-1` stay, and the others are the choices in order. -/
theorem fillRemaining_spec {ps choices : List ℤ} (hlen : choices.length = ps.count (-1)) :
    (ps.zip (fillRemaining ps choices)).filterMap (fun x => if x.1 = -1 then some x.2 else none) = choices ∧
      ∀ x ∈ ps.zip (fillRemaining ps choices), x.1 ≠ -1 → x.2 = x.1 := by
  induction ps generalizing choices with
  | nil =>
    rw [List.length_eq_zero_iff.mp hlen]
    exact ⟨rfl, fun x hx => absurd hx (by simp)⟩
  | cons p ps ih =>
    by_cases hp : p = -1
    · subst hp
      rw [List.count_cons_self] at hlen
      rcases choices with _ | ⟨c, cs⟩
      · cases hlen
      · obtain ⟨hfill, hstay⟩ := ih (Nat.succ.inj hlen)
        rw [fillRemaining, if_pos rfl, List.zip_cons_cons, List.filterMap_cons, if_pos rfl]
        refine ⟨congrArg (List.cons c) hfill, fun x hx hne => ?_⟩
        rcases List.mem_cons.mp hx with rfl | hx
        · exact absurd rfl hne
        · exact hstay x hx hne
    · rw [List.count_cons_of_ne hp] at hlen
      have hcons : fillRemaining (p :: ps) choices = p :: fillRemaining ps choices := by
        rcases choices with _ | ⟨c, cs⟩
        · rfl
        · rw [fillRemaining, if_neg hp]
      obtain ⟨hfill, hstay⟩ := ih hlen
      rw [hcons, List.zip_cons_cons, List.filterMap_cons, if_neg hp]
      refine ⟨hfill, fun x hx hne => ?_⟩
      rcases List.mem_cons.mp hx with rfl | hx
      · rfl
      · exact hstay x hx hne

/-- The chosen entries of a list, by their positions. -/
theorem map_filter_eq_filterMap {α β : Type} (q : α → Prop) [DecidablePred q] (f : α → β) (l : List α) :
    (l.filter q).map f = l.filterMap fun i => if q i then some (f i) else none := by
  induction l with
  | nil => rfl
  | cons a l ih =>
    by_cases ha : q a
    · rw [List.filter_cons, if_pos (decide_eq_true ha), List.map_cons, List.filterMap_cons, if_pos ha, ih]
    · rw [List.filter_cons, if_neg (by simpa using ha), List.filterMap_cons, if_neg ha, ih]

theorem zip_eq_map_range {α β : Type} (xs : List α) (ys : List β) (a : α) (b : β) {n : ℕ}
    (hxs : xs.length = n) (hys : ys.length = n) :
    xs.zip ys = (List.range n).map fun i => (xs.getD i a, ys.getD i b) := by
  refine List.ext_getElem (by simp [hxs, hys]) fun i hi _ => ?_
  have hi' : i < n := by simpa [hxs, hys] using hi
  simp [List.getD_eq_getElem?_getD, List.getElem?_eq_getElem (hxs.symm ▸ hi'),
    List.getElem?_eq_getElem (hys.symm ▸ hi')]

/-- The physical experts that a logical one is sent to, by ranks: as near as there is one, and spread
evenly where there is none on the node. -/
structure NearestOrFair (t : Topology) (epSize : ℕ) (candidates : List ℤ) (chosen : ℕ → ℤ) : Prop where
  mem : ∀ rank < epSize, chosen rank ∈ candidates
  gpu : ∀ rank < epSize, (∃ q ∈ candidates, t.gpuId q = rank) → t.gpuId (chosen rank) = rank
  node : ∀ rank < epSize, (∃ q ∈ candidates, t.nodeId q = t.nodeRank rank) →
    t.nodeId (chosen rank) = t.nodeRank rank
  fair : ∀ p ∈ candidates, ∀ q ∈ candidates,
    (((List.range epSize).filter (Remote t candidates)).map chosen).count p ≤
      (((List.range epSize).filter (Remote t candidates)).map chosen).count q + 1

theorem exists_dispatchOfRanks {t : Topology} (hlocal : 0 < t.numLocalGpuPhysicalExperts)
    (hgpus : 0 < t.numGpusPerNode) (epSize : ℕ) {candidates : List ℤ} (hne : candidates ≠ [])
    (hnodup : candidates.Nodup) (hvalid : -1 ∉ candidates) (s : σ) :
    ∃ col s', (dispatchOfRanks rng t epSize candidates).run s = .ok col s' ∧ col.length = epSize ∧
      NearestOrFair t epSize candidates fun rank => col.getD rank (-1) := by
  obtain ⟨nearest, s₁, hrun₁, hnearest⟩ := PyM.run_mapM_forall₂ (l := List.range epSize)
    (f := fun rank => PyM.ofExcept (findNearestExpert t candidates rank))
    (Q := fun rank p => (p = -1 ∧ candidates.length ≠ 1 ∧ Remote t candidates rank) ∨
      p ∈ candidates ∧ ((∃ q ∈ candidates, t.gpuId q = rank) → t.gpuId p = rank) ∧
        (¬Remote t candidates rank → t.nodeId p = t.nodeRank rank) ∧
        (Remote t candidates rank → candidates.length = 1))
    (fun rank _ s => by
      obtain ⟨p, hp, hspec⟩ := exists_findNearestExpert hlocal hgpus candidates rank
      exact ⟨p, s, by rw [hp]; rfl, hspec⟩) s
  obtain ⟨choices, s₂, hrun₂, hlen, hmem, hfair⟩ :=
    exists_fairChoices rng hne hnodup (nearest.count (-1)) s₁
  have hnearestLen : nearest.length = epSize := by rw [← hnearest.length_eq, List.length_range]
  have hcolLen : (fillRemaining nearest choices).length = epSize := by rw [length_fillRemaining, hnearestLen]
  obtain ⟨hfill, hstay⟩ := fillRemaining_spec hlen
  rw [zip_eq_map_range _ _ 0 (-1) hnearestLen hcolLen] at hfill hstay
  rw [List.filterMap_map] at hfill
  have hchosen : ((List.range epSize).filter fun rank => nearest.getD rank 0 = -1).map
      (fun rank => (fillRemaining nearest choices).getD rank (-1)) = choices :=
    (map_filter_eq_filterMap _ _ _).trans hfill
  have hkeep (rank : ℕ) (hrank : rank < epSize) (hfound : nearest.getD rank 0 ≠ -1) :
      (fillRemaining nearest choices).getD rank (-1) = nearest.getD rank 0 :=
    hstay _ (List.mem_map_of_mem (List.mem_range.mpr hrank)) hfound
  have hspec (rank : ℕ) (hrank : rank < epSize) := (List.forall₂_iff_get.mp hnearest).2 rank
    (by rwa [List.length_range]) (by rwa [hnearestLen])
  simp only [List.get_eq_getElem, List.getElem_range] at hspec
  -- a rank is left for the fair choices, or its expert is the nearest one
  have hcases (rank : ℕ) (hrank : rank < epSize) : (nearest.getD rank 0 = -1 ∧ candidates.length ≠ 1 ∧
      Remote t candidates rank ∧ (fillRemaining nearest choices).getD rank (-1) ∈ candidates) ∨
      (nearest.getD rank 0 ≠ -1 ∧ (fillRemaining nearest choices).getD rank (-1) ∈ candidates ∧
        ((∃ q ∈ candidates, t.gpuId q = rank) →
          t.gpuId ((fillRemaining nearest choices).getD rank (-1)) = rank) ∧
        (¬Remote t candidates rank →
          t.nodeId ((fillRemaining nearest choices).getD rank (-1)) = t.nodeRank rank) ∧
        (Remote t candidates rank → candidates.length = 1)) := by
    have h := hspec rank hrank
    rw [← List.getD_eq_getElem nearest 0] at h
    rcases h with ⟨hp, hmany, hremote⟩ | ⟨hp, hgpu, hnode, hone⟩
    · have hleft : (fillRemaining nearest choices).getD rank (-1) ∈ choices := by
        have hrank : rank ∈ (List.range epSize).filter fun rank => nearest.getD rank 0 = -1 :=
          List.mem_filter.mpr ⟨List.mem_range.mpr hrank, decide_eq_true hp⟩
        have hleft := List.mem_map_of_mem (f := fun rank => (fillRemaining nearest choices).getD rank (-1)) hrank
        rwa [hchosen] at hleft
      exact .inl ⟨hp, hmany, hremote, hmem _ hleft⟩
    · have hfound : nearest.getD rank 0 ≠ -1 := fun h => hvalid (h ▸ hp)
      rw [hkeep rank hrank hfound]
      exact .inr ⟨hfound, hp, hgpu, hnode, hone⟩
  refine ⟨fillRemaining nearest choices, s₂, ?_, hcolLen, ⟨?_, ?_, ?_, ?_⟩⟩
  · exact (PyM.run_bind_of_ok hrun₁).trans ((PyM.run_bind_of_ok hrun₂).trans rfl)
  · intro rank hrank
    rcases hcases rank hrank with h | h
    · exact h.2.2.2
    · exact h.2.1
  · intro rank hrank hgpu
    rcases hcases rank hrank with h | h
    · obtain ⟨q, hq, hqgpu⟩ := hgpu
      exact absurd (nodeId_of_gpuId hqgpu) (h.2.2.1 q hq)
    · exact h.2.2.1 hgpu
  · intro rank hrank hnode
    have hnear : ¬Remote t candidates rank := by
      obtain ⟨q, hq, hqnode⟩ := hnode
      exact fun hremote => hremote q hq hqnode
    rcases hcases rank hrank with h | h
    · exact absurd h.2.2.1 hnear
    · exact h.2.2.2.1 hnear
  · intro p hp q hq
    by_cases hone : candidates.length = 1
    · obtain ⟨c, rfl⟩ := List.length_eq_one_iff.mp hone
      rw [List.mem_singleton.mp hp, List.mem_singleton.mp hq]
      exact Nat.le_succ _
    · have hremote : (List.range epSize).filter (fun rank => Remote t candidates rank) =
          (List.range epSize).filter fun rank => nearest.getD rank 0 = -1 := by
        refine List.filter_congr fun rank hrank => decide_eq_decide.mpr ?_
        rcases hcases rank (List.mem_range.mp hrank) with h | h
        · exact iff_of_true h.2.2.1 h.1
        · exact iff_of_false (fun hr => hone (h.2.2.2.2 hr)) h.1
      rw [hremote, hchosen]
      have hbp := (hfair p hp).2
      have hbq := (hfair q hq).1
      omega

/-- The list of a loop over a range, by its positions. -/
theorem forall₂_range {α : Type} {Q : ℕ → α → Prop} {n : ℕ} {ys : List α} (h : List.Forall₂ Q (List.range n) ys)
    (d : α) : ys.length = n ∧ ∀ i < n, Q i (ys.getD i d) := by
  have hlen : ys.length = n := by rw [← h.length_eq, List.length_range]
  refine ⟨hlen, fun i hi => ?_⟩
  have hget := (List.forall₂_iff_get.mp h).2 i (by rwa [List.length_range]) (by rwa [hlen])
  rw [List.get_eq_getElem, List.get_eq_getElem, List.getElem_range] at hget
  rwa [List.getD_eq_getElem?_getD, List.getElem?_eq_getElem (by rwa [hlen]), Option.getD_some]

/-- The lists of physical experts that static dispatch can choose from: one at least for every expert, and
none twice. -/
def Candidates (logicalToAllPhysicalMap : Tensor3 ℤ) : Prop :=
  ∀ layer < logicalToAllPhysicalMap.dim0, ∀ logical < logicalToAllPhysicalMap.dim1,
    logicalToAllPhysicalRaw logicalToAllPhysicalMap layer logical ≠ [] ∧
      (logicalToAllPhysicalRaw logicalToAllPhysicalMap layer logical).Nodup

/-- All ranks compute the same table, and keep their own row of it. -/
theorem exists_dispatchTable {serverEpSize nnodes epSize numPhysicalExperts : ℕ} {map : Tensor3 ℤ}
    (hep : 0 < epSize) (hphysical : epSize ≤ numPhysicalExperts) (hnodes : 0 < nnodes)
    (hserver : nnodes ≤ serverEpSize) (hmap : Candidates map) (seed : ℕ) :
    ∃ table : ℕ → ℕ → ℕ → ℤ,
      (∀ epRank < epSize, ∃ m, computeLogicalToRankDispatchPhysicalMap rng serverEpSize nnodes map epSize
        numPhysicalExperts epRank seed = .ok m ∧ m.Is map.dim0 map.dim1 (table epRank)) ∧
      ∀ layer < map.dim0, ∀ logical < map.dim1,
        NearestOrFair ⟨numPhysicalExperts / epSize, serverEpSize / nnodes⟩ epSize
          (logicalToAllPhysicalRaw map layer logical) fun rank => table rank layer logical := by
  have hlocal : 0 < numPhysicalExperts / epSize := Nat.div_pos hphysical hep
  have hgpus : 0 < serverEpSize / nnodes := Nat.div_pos hserver hnodes
  obtain ⟨rows, s', hrun, hrows⟩ := PyM.run_mapM_forall₂ (l := List.range map.dim0)
    (f := fun layer => (List.range map.dim1).mapM fun logical =>
      dispatchOfRanks rng ⟨numPhysicalExperts / epSize, serverEpSize / nnodes⟩ epSize
        (logicalToAllPhysicalRaw map layer logical))
    (Q := fun layer row => List.Forall₂ (fun logical col => col.length = epSize ∧
      NearestOrFair ⟨numPhysicalExperts / epSize, serverEpSize / nnodes⟩ epSize
        (logicalToAllPhysicalRaw map layer logical) fun rank => col.getD rank (-1)) (List.range map.dim1) row)
    (fun layer hlayer s => PyM.run_mapM_forall₂ (fun logical hlogical s => by
      obtain ⟨hne, hnodup⟩ := hmap layer (List.mem_range.mp hlayer) logical (List.mem_range.mp hlogical)
      refine exists_dispatchOfRanks rng hlocal hgpus epSize hne hnodup (fun hmem => ?_) s
      exact of_decide_eq_true (List.mem_filter.mp hmem).2 rfl) s) (rng.seed seed)
  obtain ⟨hlen, hrow⟩ := forall₂_range hrows []
  have hcol (layer : ℕ) (hlayer : layer < map.dim0) := forall₂_range (hrow layer hlayer) []
  have hall : rows.all fun row => row.all fun ranks => ranks.all (· ≠ -1) := by
    simp only [List.all_eq_true]
    intro row hmem ranks hranks p hp
    obtain ⟨layer, hlayer, rfl⟩ := List.getElem_of_mem hmem
    obtain ⟨logical, hlogical, rfl⟩ := List.getElem_of_mem hranks
    obtain ⟨rank, hrank, rfl⟩ := List.getElem_of_mem hp
    have hlayer' : layer < map.dim0 := hlen ▸ hlayer
    have hget : rows.getD layer [] = rows[layer] := by
      rw [List.getD_eq_getElem?_getD, List.getElem?_eq_getElem hlayer, Option.getD_some]
    obtain ⟨hlen', hspec⟩ := hcol layer hlayer'
    rw [hget] at hlen' hspec
    obtain ⟨hranks', hnear⟩ := hspec logical (hlen' ▸ hlogical)
    rw [List.getD_eq_getElem?_getD, List.getElem?_eq_getElem hlogical, Option.getD_some] at hranks' hnear
    have hchosen := hnear.mem rank (hranks' ▸ hrank)
    rw [List.getD_eq_getElem?_getD, List.getElem?_eq_getElem hrank, Option.getD_some] at hchosen
    exact (List.mem_filter.mp hchosen).2
  refine ⟨fun rank layer logical => ((rows.getD layer []).getD logical []).getD rank (-1),
    fun epRank hrank => ⟨⟨map.dim0, map.dim1, _⟩, ?_, rfl, rfl, fun _ _ _ _ => rfl⟩,
    fun layer hlayer logical hlogical => ((hcol layer hlayer).2 logical hlogical).2⟩
  rw [computeLogicalToRankDispatchPhysicalMap, if_neg (by omega)]
  simp only [hrun, hall, not_true_eq_false, if_false, if_neg (not_le.mpr hrank)]
  rfl

end Fair

end MoeSpecialization.Eplb
