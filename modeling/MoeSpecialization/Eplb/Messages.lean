import MoeSpecialization.Eplb.Updater

/-!
# The messages of a weight update

Reference: `_create_isend_ops`, `_handle_recv` and `_execute_p2p_ops` in
`sglang/srt/eplb/expert_location_updater.py`.

A rank collects what it receives in the order of its locations and then what it sends, one entry for each
expert, and issues the operations in the order of the experts. Messages between two ranks are matched in the
order in which they are issued, so the two ranks have to agree on the experts and on their order. They do
(`messages_match`): both lists are ascending, without repetitions, and have the experts that one rank chose
the other for.
-/

namespace MoeSpecialization.Eplb

open Py

namespace LayerUpdate

variable {u : LayerUpdate} {worldSize : ℕ}

/-- An entry of `_create_isend_ops`: an expert of the rank, for the ranks that choose it. -/
def IsendSpec (u : LayerUpdate) (rank : ℕ) (info : ℤ × List P2POp) : Prop :=
  ∃ src ∈ u.localExpertLocations rank, u.oldPhysicalToLogicalMap src = info.1 ∧
    ∃ dsts : List ℕ, dsts.Nodup ∧
      (∀ d, d ∈ dsts ↔ d ∈ u.needCommDstRanks info.1 ∧ u.chosenSrcRank d info.1 = .ok rank) ∧
      info.2 = dsts.flatMap fun d => (List.range u.numTensors).map fun i => .isend i src d

theorem WellFormed.exists_isendInfo (h : u.WellFormed worldSize) {rank src : ℕ} (hrank : rank < worldSize)
    (hsrc : src ∈ u.localExpertLocations rank) :
    ∃ ops, u.isendInfo rank (u.oldPhysicalToLogicalMap src) src =
        .ok (u.oldPhysicalToLogicalMap src, ops) ∧
      u.IsendSpec rank (u.oldPhysicalToLogicalMap src, ops) := by
  obtain ⟨dsts, hdsts, hnodup, hmem⟩ :=
    exists_allDstRanks (h.mem_allSrcRanks.mpr ⟨hrank, src, hsrc, rfl⟩)
  refine ⟨_, ?_, src, hsrc, rfl, dsts, hnodup, hmem, rfl⟩
  rw [isendInfo, hdsts]
  rfl

/-- The loop of `_create_isend_ops`, from any point on. -/
theorem WellFormed.run_createIsendOps (h : u.WellFormed worldSize) {rank : ℕ} (hrank : rank < worldSize)
    {locations : List ℕ} (hlocal : ∀ x ∈ locations, x ∈ u.localExpertLocations rank) {handled : List ℤ}
    {infos : List (ℤ × List P2POp)} (hkeys : ∀ e, e ∈ handled ↔ e ∈ infos.map Prod.fst)
    (hnodup : (infos.map Prod.fst).Nodup) (hinfos : ∀ info ∈ infos, u.IsendSpec rank info) :
    ∃ handled' infos',
      locations.foldlM (u.createIsendStep rank) (handled, infos) = .ok (handled', infos') ∧
      (infos'.map Prod.fst).Nodup ∧ (∀ info ∈ infos', u.IsendSpec rank info) ∧
      ∀ e, e ∈ infos'.map Prod.fst ↔
        e ∈ infos.map Prod.fst ∨ ∃ x ∈ locations, u.oldPhysicalToLogicalMap x = e := by
  induction locations generalizing handled infos with
  | nil => exact ⟨handled, infos, rfl, hnodup, hinfos, by simp⟩
  | cons x locations ih =>
    have hx := hlocal x (by simp)
    have hrest : ∀ y ∈ locations, y ∈ u.localExpertLocations rank := fun y hy => hlocal y (by simp [hy])
    rw [List.foldlM_cons]
    by_cases hdone : u.oldPhysicalToLogicalMap x ∈ handled
    · obtain ⟨handled', infos', hrun, hnodup', hinfos', hmem⟩ := ih hrest hkeys hnodup hinfos
      refine ⟨handled', infos', ?_, hnodup', hinfos', fun e => ?_⟩
      · rw [createIsendStep, if_pos hdone]
        exact hrun
      · rw [hmem e, List.exists_mem_cons_iff, ← or_assoc, or_right_comm]
        refine (or_iff_left_of_imp fun heq => ?_).symm
        exact .inl (heq ▸ (hkeys _).mp hdone)
    · obtain ⟨ops, hinfo, hspec⟩ := h.exists_isendInfo hrank hx
      have hnew : u.oldPhysicalToLogicalMap x ∉ infos.map Prod.fst := fun hmem => hdone ((hkeys _).mpr hmem)
      have hkeys₁ : ∀ e, e ∈ u.oldPhysicalToLogicalMap x :: handled ↔
          e ∈ (infos ++ [(u.oldPhysicalToLogicalMap x, ops)]).map Prod.fst := fun e => by
        rw [List.mem_cons, hkeys, List.map_append, List.mem_append, or_comm, List.map_singleton,
          List.mem_singleton]
      have hnodup₁ : ((infos ++ [(u.oldPhysicalToLogicalMap x, ops)]).map Prod.fst).Nodup := by
        rw [List.map_append, List.map_singleton, ← List.concat_eq_append]
        exact (List.nodup_concat _ _).mpr ⟨hnew, hnodup⟩
      have hinfos₁ : ∀ info ∈ infos ++ [(u.oldPhysicalToLogicalMap x, ops)], u.IsendSpec rank info :=
        fun info hi => (List.mem_append.mp hi).elim (hinfos info) fun hi =>
          List.mem_singleton.mp hi ▸ hspec
      obtain ⟨handled', infos', hrun, hnodup', hinfos', hmem⟩ := ih hrest hkeys₁ hnodup₁ hinfos₁
      refine ⟨handled', infos', ?_, hnodup', hinfos', fun e => ?_⟩
      · rw [createIsendStep, if_neg hdone, hinfo]
        exact hrun
      · rw [hmem e, List.exists_mem_cons_iff, List.map_append, List.mem_append, or_assoc]
        simp [eq_comm]

/-- What `_create_isend_ops` collects: one entry for every expert of the rank. -/
theorem WellFormed.exists_createIsendOps (h : u.WellFormed worldSize) {rank : ℕ} (hrank : rank < worldSize) :
    ∃ handled infos, u.createIsendOps rank = .ok (handled, infos) ∧ (infos.map Prod.fst).Nodup ∧
      (∀ info ∈ infos, u.IsendSpec rank info) ∧
      ∀ e, e ∈ infos.map Prod.fst ↔ rank ∈ u.allSrcRanks e := by
  have hkeys : ∀ e : ℤ, e ∈ ([] : List ℤ) ↔ e ∈ ([] : List (ℤ × List P2POp)).map Prod.fst := by simp
  obtain ⟨handled, infos, hrun, hnodup, hinfos, hmem⟩ := h.run_createIsendOps hrank
    (fun x hx => hx) hkeys List.nodup_nil (by simp)
  refine ⟨handled, infos, hrun, hnodup, hinfos, fun e => (hmem e).trans ?_⟩
  rw [h.mem_allSrcRanks]
  simp [hrank]

/-- The program of a rank, with the entries that its operations are sorted from. -/
theorem WellFormed.exists_program (h : u.WellFormed worldSize) {rank : ℕ} (hrank : rank < worldSize) :
    ∃ infos : List (ℤ × List P2POp), (infos.map Prod.fst).Nodup ∧ (∀ info ∈ infos, u.IsendSpec rank info) ∧
      (∀ e, e ∈ infos.map Prod.fst ↔ rank ∈ u.allSrcRanks e) ∧
      u.updateExpertWeightsSingleLayer rank = .ok {
        tempCopies := (u.localExpertLocations rank).flatMap fun dst => (u.caseOf rank dst).tempCopies dst
        p2pOps := sortedOps (((u.localExpertLocations rank).flatMap fun dst =>
          u.recvInfos dst (u.caseOf rank dst)) ++ infos)
        buffer2weightCopyInfos := (u.localExpertLocations rank).flatMap fun dst =>
          (u.caseOf rank dst).buffer2weightCopyInfos dst } := by
  obtain ⟨handled, infos, hrun, hnodup, hinfos, hmem⟩ := h.exists_createIsendOps hrank
  refine ⟨infos, hnodup, hinfos, hmem, ?_⟩
  rw [updateExpertWeightsSingleLayer, if_neg h.numGpuPerNode_pos.ne', h.handleRecv_eq hrank, hrun]
  simp only [bind, Except.bind, pure, Except.pure, List.flatMap_map]

/-- The operations with a peer in the order of the experts: if the entries that have some give the same for
the same expert, the operations are determined by the experts. -/
theorem exists_filterMap_sortedOps {β : Type} {f : P2POp → Option β} {g : ℤ → List β}
    {infos : List (ℤ × List P2POp)}
    (h : ∀ info ∈ infos, info.2.filterMap f ≠ [] → info.2.filterMap f = g info.1) :
    ∃ keys : List ℤ, keys.Pairwise (· ≤ ·) ∧
      keys.Perm ((infos.filter fun info => info.2.filterMap f ≠ []).map Prod.fst) ∧
      (sortedOps infos).filterMap f = keys.flatMap g := by
  set sorted := infos.mergeSort fun a b => a.1 ≤ b.1 with hsorted
  have hperm : sorted.Perm infos := List.mergeSort_perm _ _
  have hpairwise : sorted.Pairwise fun a b => a.1 ≤ b.1 := by
    have hle : sorted.Pairwise fun a b => decide (a.1 ≤ b.1) = true := List.pairwise_mergeSort
      (fun a b c hab hbc => decide_eq_true ((of_decide_eq_true hab).trans (of_decide_eq_true hbc)))
      (fun a b => by simpa using le_total a.1 b.1) infos
    exact hle.imp fun hab => of_decide_eq_true hab
  refine ⟨(sorted.filter fun info => info.2.filterMap f ≠ []).map Prod.fst,
    List.pairwise_map.mpr (hpairwise.filter _), (hperm.filter _).map _, ?_⟩
  rw [sortedOps, ← hsorted]
  have hmem : ∀ info ∈ sorted, info.2.filterMap f ≠ [] → info.2.filterMap f = g info.1 :=
    fun info hi => h info (hperm.mem_iff.mp hi)
  clear_value sorted
  clear hsorted hperm hpairwise
  induction sorted with
  | nil => rfl
  | cons info sorted ih =>
    have ih := ih fun info hi => hmem info (by simp [hi])
    rw [List.flatMap_cons, List.filterMap_append, ih, List.filter_cons]
    by_cases hempty : info.2.filterMap f = []
    · rw [if_neg (by simpa using hempty), hempty, List.nil_append]
    · rw [if_pos (by simpa using hempty), List.map_cons, List.flatMap_cons, hmem info (by simp) hempty]

theorem flatMap_ite_eq {α β : Type} [DecidableEq α] {xs : List α} (hxs : xs.Nodup) (a : α) (ys : List β) :
    (xs.flatMap fun x => if x = a then ys else []) = if a ∈ xs then ys else [] := by
  induction xs with
  | nil => rfl
  | cons x xs ih =>
    obtain ⟨hx, hxs⟩ := List.nodup_cons.mp hxs
    rw [List.flatMap_cons, ih hxs]
    by_cases hxa : x = a
    · subst hxa
      simp [hx]
    · simp [hxa, Ne.symm hxa]

/-- The messages of an expert: all its tensors, in order. -/
def expertMessages (u : LayerUpdate) (e : ℤ) : List (ℕ × ℤ) := (List.range u.numTensors).map fun i => (i, e)

/-- The messages that an operation sends to a rank, with the expert of their location. -/
def sentExpert? (u : LayerUpdate) (d : ℕ) (op : P2POp) : Option (ℕ × ℤ) :=
  (op.sendTo? d).map fun m => (m.1, u.oldPhysicalToLogicalMap m.2)

/-- The messages that an operation waits for from a rank, with the expert that their location needs. -/
def receivedExpert? (u : LayerUpdate) (s : ℕ) (op : P2POp) : Option (ℕ × ℤ) :=
  (op.recvFrom? s).map fun m => (m.1, u.newPhysicalToLogicalMap m.2)

theorem filterMap_isend {info : ℤ × List P2POp} {rank d : ℕ} (h : u.IsendSpec rank info) :
    info.2.filterMap (u.sentExpert? d) =
        (if d ∈ u.needCommDstRanks info.1 ∧ u.chosenSrcRank d info.1 = .ok rank then
          u.expertMessages info.1 else []) ∧
      ∀ s, info.2.filterMap (u.receivedExpert? s) = [] := by
  obtain ⟨src, -, hsrc, dsts, hnodup, hmem, hops⟩ := h
  rw [hops]
  constructor
  · have hone : ∀ d', ((List.range u.numTensors).map fun i => P2POp.isend i src d').filterMap
        (u.sentExpert? d) = if d' = d then u.expertMessages info.1 else [] := by
      intro d'
      rw [List.filterMap_map]
      by_cases hd : d' = d
      · rw [if_pos hd, expertMessages, ← hsrc, ← List.filterMap_eq_map]
        refine List.filterMap_congr fun i _ => ?_
        simp [sentExpert?, P2POp.sendTo?, hd]
      · rw [if_neg hd]
        refine List.filterMap_eq_nil_iff.mpr fun i _ => ?_
        simp [sentExpert?, P2POp.sendTo?, hd]
    rw [List.filterMap_flatMap]
    simp only [hone]
    rw [flatMap_ite_eq hnodup]
    simp only [hmem]
  · intro s
    refine List.filterMap_eq_nil_iff.mpr fun op hop => ?_
    obtain ⟨d', -, hop⟩ := List.mem_flatMap.mp hop
    obtain ⟨i, -, rfl⟩ := List.mem_map.mp hop
    rfl

theorem filterMap_irecv {dst rank s : ℕ} {info : ℤ × List P2POp} (h : info ∈ u.recvInfos dst (u.caseOf rank dst)) :
    info.1 = u.newPhysicalToLogicalMap dst ∧ (∀ d, info.2.filterMap (u.sentExpert? d) = []) ∧
      info.2.filterMap (u.receivedExpert? s) =
        if (u.caseOf rank dst).srcRank? = some s then u.expertMessages info.1 else [] := by
  obtain ⟨srcRank, hsrc, rfl⟩ := List.mem_map.mp h
  rw [Option.mem_toList] at hsrc
  refine ⟨rfl, fun d => ?_, ?_⟩
  · refine List.filterMap_eq_nil_iff.mpr fun op hop => ?_
    obtain ⟨i, -, rfl⟩ := List.mem_map.mp hop
    rfl
  · rw [hsrc, List.filterMap_map]
    by_cases hs : srcRank = s
    · rw [if_pos (congrArg some hs), expertMessages, ← List.filterMap_eq_map]
      refine List.filterMap_congr fun i _ => ?_
      simp [receivedExpert?, P2POp.recvFrom?, hs]
    · rw [if_neg fun heq => hs (Option.some.inj heq)]
      refine List.filterMap_eq_nil_iff.mpr fun i _ => ?_
      simp [receivedExpert?, P2POp.recvFrom?, hs]

/-- The entries that a rank receives with. -/
def allRecvInfos (u : LayerUpdate) (rank : ℕ) : List (ℤ × List P2POp) :=
  (u.localExpertLocations rank).flatMap fun dst => u.recvInfos dst (u.caseOf rank dst)

/-- The experts that a rank sends to another: those that the other chooses it for. -/
theorem exists_sent {rank d : ℕ} {infos : List (ℤ × List P2POp)} (hnodup : (infos.map Prod.fst).Nodup)
    (hinfos : ∀ info ∈ infos, u.IsendSpec rank info)
    (hkeys : ∀ e, e ∈ infos.map Prod.fst ↔ rank ∈ u.allSrcRanks e) :
    ∃ keys : List ℤ, keys.Pairwise (· ≤ ·) ∧ keys.Nodup ∧
      (∀ e, e ∈ keys ↔ u.expertMessages e ≠ [] ∧ d ∈ u.needCommDstRanks e ∧
        u.chosenSrcRank d e = .ok rank) ∧
      (sortedOps (u.allRecvInfos rank ++ infos)).filterMap (u.sentExpert? d) =
        keys.flatMap u.expertMessages := by
  have hrecv : ∀ info ∈ u.allRecvInfos rank, info.2.filterMap (u.sentExpert? d) = [] := by
    intro info hi
    obtain ⟨dst, -, hi⟩ := List.mem_flatMap.mp hi
    exact (@filterMap_irecv u dst rank rank info hi).2.1 d
  have hall : ∀ info ∈ u.allRecvInfos rank ++ infos, info.2.filterMap (u.sentExpert? d) ≠ [] →
      info.2.filterMap (u.sentExpert? d) = u.expertMessages info.1 := by
    intro info hi hne
    rcases List.mem_append.mp hi with hi | hi
    · exact absurd (hrecv info hi) hne
    · have heq := (@filterMap_isend u info rank d (hinfos info hi)).1
      rw [heq] at hne ⊢
      split at hne
      · rename_i hc
        rw [if_pos hc]
      · exact absurd rfl hne
  obtain ⟨keys, hsorted, hperm, hops⟩ := exists_filterMap_sortedOps hall
  -- the receiving entries are filtered out
  have hfilter : ((u.allRecvInfos rank ++ infos).filter fun info =>
      info.2.filterMap (u.sentExpert? d) ≠ []) =
        infos.filter fun info => info.2.filterMap (u.sentExpert? d) ≠ [] := by
    rw [List.filter_append, List.filter_eq_nil_iff.mpr fun info hi => by simp [hrecv info hi],
      List.nil_append]
  rw [hfilter] at hperm
  refine ⟨keys, hsorted, ?_, fun e => ?_, hops⟩
  · exact hperm.nodup_iff.mpr (hnodup.sublist (List.filter_sublist.map _))
  · rw [hperm.mem_iff, List.mem_map]
    constructor
    · rintro ⟨info, hi, rfl⟩
      obtain ⟨hi, hne⟩ := List.mem_filter.mp hi
      have heq := (@filterMap_isend u info rank d (hinfos info hi)).1
      rw [decide_eq_true_eq, heq] at hne
      split at hne
      · rename_i hc
        exact ⟨hne, hc⟩
      · exact absurd rfl hne
    · rintro ⟨hne, hd, hchosen⟩
      obtain ⟨info, hi, rfl⟩ := List.mem_map.mp ((hkeys e).mpr (mem_allSrcRanks_of_chosen hchosen))
      refine ⟨info, List.mem_filter.mpr ⟨hi, ?_⟩, rfl⟩
      rw [decide_eq_true_eq, (@filterMap_isend u info rank d (hinfos info hi)).1, if_pos ⟨hd, hchosen⟩]
      exact hne

theorem WellFormed.nodup_allRecvInfos (h : u.WellFormed worldSize) {rank : ℕ} (hrank : rank < worldSize) :
    ((u.allRecvInfos rank).map Prod.fst).Nodup := by
  rw [allRecvInfos, List.map_flatMap, List.nodup_flatMap]
  constructor
  · intro dst _
    rw [recvInfos]
    cases (u.caseOf rank dst).srcRank? <;> simp
  · refine List.Pairwise.imp_of_mem ?_ (List.pairwise_lt_range' (s := rank * u.numLocalPhysicalExperts)
      (n := u.numLocalPhysicalExperts))
    intro x y hx hy hlt
    refine List.disjoint_left.mpr fun e hex hey => ?_
    obtain ⟨info, hinfo, rfl⟩ := List.mem_map.mp hex
    obtain ⟨info', hinfo', heq⟩ := List.mem_map.mp hey
    obtain ⟨srcRank, hsrc, rfl⟩ := List.mem_map.mp hinfo'
    rw [(@filterMap_irecv u x rank rank info hinfo).1] at heq
    exact ((h.srcRank?_eq_some hrank hy).mp (Option.mem_toList.mp hsrc)).2.1 x hx hlt heq.symm

/-- The experts that a rank receives from another: those that it chooses the other for, each at the first
location that needs it. -/
theorem WellFormed.exists_received (h : u.WellFormed worldSize) {rank s : ℕ} (hrank : rank < worldSize)
    {infos : List (ℤ × List P2POp)} (hinfos : ∀ info ∈ infos, u.IsendSpec rank info) :
    ∃ keys : List ℤ, keys.Pairwise (· ≤ ·) ∧ keys.Nodup ∧
      (∀ e, e ∈ keys ↔ u.expertMessages e ≠ [] ∧ rank ∈ u.needCommDstRanks e ∧
        u.chosenSrcRank rank e = .ok s) ∧
      (sortedOps (u.allRecvInfos rank ++ infos)).filterMap (u.receivedExpert? s) =
        keys.flatMap u.expertMessages := by
  have hsend : ∀ info ∈ infos, info.2.filterMap (u.receivedExpert? s) = [] := fun info hi =>
    (@filterMap_isend u info rank rank (hinfos info hi)).2 s
  have hall : ∀ info ∈ u.allRecvInfos rank ++ infos, info.2.filterMap (u.receivedExpert? s) ≠ [] →
      info.2.filterMap (u.receivedExpert? s) = u.expertMessages info.1 := by
    intro info hi hne
    rcases List.mem_append.mp hi with hi | hi
    · obtain ⟨dst, -, hi⟩ := List.mem_flatMap.mp hi
      have heq := (@filterMap_irecv u dst rank s info hi).2.2
      rw [heq] at hne ⊢
      split at hne
      · rename_i hc
        rw [if_pos hc]
      · exact absurd rfl hne
    · exact absurd (hsend info hi) hne
  obtain ⟨keys, hsorted, hperm, hops⟩ := exists_filterMap_sortedOps hall
  have hfilter : ((u.allRecvInfos rank ++ infos).filter fun info =>
      info.2.filterMap (u.receivedExpert? s) ≠ []) =
        (u.allRecvInfos rank).filter fun info => info.2.filterMap (u.receivedExpert? s) ≠ [] := by
    have hnil : (infos.filter fun info => info.2.filterMap (u.receivedExpert? s) ≠ []) = [] :=
      List.filter_eq_nil_iff.mpr fun info hi => by simp [hsend info hi]
    rw [List.filter_append, hnil, List.append_nil]
  rw [hfilter] at hperm
  refine ⟨keys, hsorted, ?_, fun e => ?_, hops⟩
  · exact hperm.nodup_iff.mpr ((h.nodup_allRecvInfos hrank).sublist (List.filter_sublist.map _))
  · rw [hperm.mem_iff, List.mem_map]
    constructor
    · rintro ⟨info, hi, rfl⟩
      obtain ⟨hi, hne⟩ := List.mem_filter.mp hi
      obtain ⟨dst, hdst, hi⟩ := List.mem_flatMap.mp hi
      obtain ⟨hkey, -, heq⟩ := @filterMap_irecv u dst rank s info hi
      rw [decide_eq_true_eq, heq] at hne
      split at hne
      · rename_i hc
        obtain ⟨hneed, -, hchosen⟩ := (h.srcRank?_eq_some hrank hdst).mp hc
        exact ⟨hne, hkey ▸ hneed, hkey ▸ hchosen⟩
      · exact absurd rfl hne
    · rintro ⟨hne, hneed, hchosen⟩
      have hloc : ∃ x, x ∈ u.localExpertLocations rank ∧ u.newPhysicalToLogicalMap x = e :=
        (h.mem_needCommDstRanks.mp hneed).2.1
      -- the first location that needs the expert
      obtain ⟨dst, ⟨hdst, rfl⟩, hfirst⟩ : ∃ dst, (dst ∈ u.localExpertLocations rank ∧
          u.newPhysicalToLogicalMap dst = e) ∧ ∀ x < dst, ¬(x ∈ u.localExpertLocations rank ∧
            u.newPhysicalToLogicalMap x = e) :=
        ⟨Nat.find hloc, Nat.find_spec hloc, fun x hx => Nat.find_min hloc hx⟩
      have hsrc : (u.caseOf rank dst).srcRank? = some s := (h.srcRank?_eq_some hrank hdst).mpr
        ⟨hneed, fun x hx hlt heq => hfirst x hlt ⟨hx, heq⟩, hchosen⟩
      have hinfo : (u.newPhysicalToLogicalMap dst, (List.range u.numTensors).map fun i =>
          P2POp.irecv i dst s) ∈ u.recvInfos dst (u.caseOf rank dst) := by
        rw [recvInfos, hsrc]
        exact List.mem_singleton.mpr rfl
      refine ⟨_, List.mem_filter.mpr ⟨List.mem_flatMap.mpr ⟨_, hdst, hinfo⟩, ?_⟩, rfl⟩
      rw [decide_eq_true_eq, (@filterMap_irecv u _ rank s _ hinfo).2.2, if_pos hsrc]
      exact hne

theorem mem_sortedOps {infos : List (ℤ × List P2POp)} {op : P2POp} :
    op ∈ sortedOps infos ↔ ∃ info ∈ infos, op ∈ info.2 := by
  rw [sortedOps, List.mem_flatMap]
  simp only [List.mem_mergeSort]

/-- The operations of a rank are with ranks that exist, on its own locations. -/
theorem WellFormed.op_spec (h : u.WellFormed worldSize) {rank : ℕ} (hrank : rank < worldSize)
    {infos : List (ℤ × List P2POp)} (hinfos : ∀ info ∈ infos, u.IsendSpec rank info) {op : P2POp}
    (hop : op ∈ sortedOps (u.allRecvInfos rank ++ infos)) :
    op.peer < worldSize ∧ op.location ∈ u.localExpertLocations rank ∧ op.tensor < u.numTensors := by
  obtain ⟨info, hinfo, hop⟩ := mem_sortedOps.mp hop
  rcases List.mem_append.mp hinfo with hinfo | hinfo
  · obtain ⟨dst, hdst, hinfo⟩ := List.mem_flatMap.mp hinfo
    obtain ⟨srcRank, hsrc, rfl⟩ := List.mem_map.mp hinfo
    obtain ⟨i, hi, rfl⟩ := List.mem_map.mp hop
    have hchosen := ((h.srcRank?_eq_some hrank hdst).mp (Option.mem_toList.mp hsrc)).2.2
    exact ⟨(h.mem_allSrcRanks.mp (mem_allSrcRanks_of_chosen hchosen)).1, hdst, List.mem_range.mp hi⟩
  · obtain ⟨src, hsrc, -, dsts, -, hmem, hops⟩ := hinfos info hinfo
    rw [hops] at hop
    obtain ⟨d, hd, hop⟩ := List.mem_flatMap.mp hop
    obtain ⟨i, hi, rfl⟩ := List.mem_map.mp hop
    exact ⟨(h.mem_needCommDstRanks.mp ((hmem d).mp hd).1).1, hsrc, List.mem_range.mp hi⟩

/-- What a rank sends to another is what the other waits for. -/
theorem WellFormed.sent_eq_received (h : u.WellFormed worldSize) {s d : ℕ} (hs : s < worldSize)
    (hd : d < worldSize) {ps pd : LayerProgram} (hps : u.updateExpertWeightsSingleLayer s = .ok ps)
    (hpd : u.updateExpertWeightsSingleLayer d = .ok pd) :
    (ps.p2pOps.filterMap (·.sendTo? d)).map (fun m => (m.1, u.oldPhysicalToLogicalMap m.2)) =
      (pd.p2pOps.filterMap (·.recvFrom? s)).map (fun m => (m.1, u.newPhysicalToLogicalMap m.2)) := by
  obtain ⟨infos, hnodup, hinfos, hkeys, hps'⟩ := h.exists_program hs
  obtain ⟨infos', hnodup', hinfos', hkeys', hpd'⟩ := h.exists_program hd
  rw [hps'] at hps
  rw [hpd'] at hpd
  cases hps
  cases hpd
  obtain ⟨keys, hsorted, hkeysNodup, hmem, hsent⟩ := exists_sent hnodup hinfos hkeys (d := d)
  obtain ⟨keys', hsorted', hkeysNodup', hmem', hreceived⟩ := h.exists_received hd hinfos' (s := s)
  have heq : keys = keys' := by
    refine List.Perm.eq_of_pairwise' hsorted hsorted' ?_
    exact (List.perm_ext_iff_of_nodup hkeysNodup hkeysNodup').mpr fun e => (hmem e).trans (hmem' e).symm
  rw [List.map_filterMap, List.map_filterMap]
  exact hsent.trans (heq ▸ hreceived.symm)

/-- **The messages match.** If every expert that is needed is somewhere, then every rank has a program, with
operations on its own locations and with ranks that exist. For any two ranks the messages that one sends to
the other are those that the other waits for, in the same order: the same tensor of the same expert, from a
location that had it and for a location that needs it. -/
theorem messages_match (h : u.WellFormed worldSize) :
    (∀ r < worldSize, ∃ p, u.updateExpertWeightsSingleLayer r = .ok p ∧
      ∀ op ∈ p.p2pOps, op.peer < worldSize ∧ op.location ∈ u.localExpertLocations r ∧
        op.tensor < u.numTensors) ∧
    ∀ s < worldSize, ∀ d < worldSize, ∀ ps pd, u.updateExpertWeightsSingleLayer s = .ok ps →
      u.updateExpertWeightsSingleLayer d = .ok pd →
      (ps.p2pOps.filterMap (·.sendTo? d)).map (fun m => (m.1, u.oldPhysicalToLogicalMap m.2)) =
        (pd.p2pOps.filterMap (·.recvFrom? s)).map (fun m => (m.1, u.newPhysicalToLogicalMap m.2)) := by
  refine ⟨fun r hr => ?_, fun s hs d hd ps pd hps hpd => h.sent_eq_received hs hd hps hpd⟩
  obtain ⟨infos, -, hinfos, -, hprogram⟩ := h.exists_program hr
  exact ⟨_, hprogram, fun op hop => h.op_spec hr hinfos hop⟩

/-- Two ranks of two locations each, on one node. The first one gives its expert `1` away for a second copy
of the expert `2`. -/
def sampleUpdate : LayerUpdate where
  oldPhysicalToLogicalMap p := p
  newPhysicalToLogicalMap p := if p = 1 then 2 else if p = 3 then 1 else p
  numPhysicalExperts := 4
  numLocalPhysicalExperts := 2
  numGpuPerNode := 2
  numTensors := 2

theorem sampleUpdate_wellFormed : sampleUpdate.WellFormed 2 where
  numPhysicalExperts_eq := rfl
  numGpuPerNode_pos := by decide
  covered := by decide

theorem messages_match_sample : ∃ p₀ p₁, sampleUpdate.updateExpertWeightsSingleLayer 0 = .ok p₀ ∧
    sampleUpdate.updateExpertWeightsSingleLayer 1 = .ok p₁ ∧
    (p₀.p2pOps.filterMap (·.sendTo? 1)).map (fun m => (m.1, sampleUpdate.oldPhysicalToLogicalMap m.2)) =
      (p₁.p2pOps.filterMap (·.recvFrom? 0)).map (fun m => (m.1, sampleUpdate.newPhysicalToLogicalMap m.2)) := by
  obtain ⟨hprograms, hmatch⟩ := messages_match sampleUpdate_wellFormed
  obtain ⟨p₀, h₀, -⟩ := hprograms 0 Nat.two_pos
  obtain ⟨p₁, h₁, -⟩ := hprograms 1 Nat.one_lt_two
  exact ⟨p₀, p₁, h₀, h₁, hmatch 0 Nat.two_pos 1 Nat.one_lt_two p₀ p₁ h₀ h₁⟩

end LayerUpdate

end MoeSpecialization.Eplb
