import MoeSpecialization.Eplb.Rebalance

/-!
# Rebalancing with inactive ranks

Reference: `rebalance_experts` in `sglang/srt/eplb/eplb_algorithms/elasticity_aware.py`.

When some ranks are inactive, the experts are placed on as many ranks as there are active ones, and the
slices of the inactive ranks are inserted afterwards: the slots behind an inserted slice move up, in
`phy2log` by the insertion and in `log2phy` by adding. The invariant of the loop is that the maps agree on
the slots outside of the slices inserted so far (`Inserting`), so in the end they agree on the active ranks
and no entry of `log2phy` leads to an inactive one (`elastic_maps_agree`).
-/

namespace MoeSpecialization.Eplb.Elastic

open Py Filling

/-- `t.unbind(dim=1)`. -/
def unbind1 (t : Tensor3 ℤ) : List (Mat ℤ) :=
  (List.range t.dim1).map fun j => ⟨t.dim0, t.dim2, fun r k => t.cell r j k⟩

/-- `torch.stack(slices, dim=1).contiguous().view(num_layers, -1)`, of slices of one shape. -/
def stack1 (slices : List (Mat ℤ)) : Except Error (Mat ℤ) :=
  match slices with
  | [] => .error (.runtimeError "stack expects a non-empty TensorList")
  | first :: _ => .ok (Tensor3.flatten2 ⟨first.rows, slices.length, first.cols, fun r j k =>
      (slices.getD j first).cell r k⟩)

/-- The loop body for the rank `idx`: an inactive rank gets a slice of zeros. -/
def insertRank (numLocalExperts : ℕ) (s : List (Mat ℤ) × Tensor3 ℤ) (rank : Bool × ℕ) :
    Except Error (List (Mat ℤ) × Tensor3 ℤ) :=
  if rank.1 then .ok s
  else match s.1 with
    | [] => .error .indexError
    | first :: _ => .ok (
        s.1.take rank.2 ++ (⟨first.rows, first.cols, fun _ _ => 0⟩ : Mat ℤ) :: s.1.drop rank.2,
        { s.2 with cell := fun r l k =>
            let v := s.2.cell r l k
            if (rank.2 * numLocalExperts : ℕ) ≤ v then v + numLocalExperts else v })

section Definitions

variable {K : Type} [Zero K] [Add K] [LT K] [DecidableLT K] [NatCast K] [Div K]

/-- `rebalance_experts`, with a flag for every rank. -/
def rebalanceExperts (T : Torch K) (weight : Mat K) (numReplicas : ℕ) (numGroups : Option ℕ)
    (numNodes numGpus : ℕ) (enableHierarchical : Bool) (activeRanks : List Bool) :
    Except Error (Mat ℤ × Tensor3 ℤ × Mat ℕ) := do
  let numActiveRanks := activeRanks.count true
  if numGpus = 0 then throw .zeroDivisionError
  let numLocalExperts := numReplicas / numGpus
  let (phy2log, phyrank, logcnt) ← if numActiveRanks < numGpus
    then rebalanceExpertsHierarchical T weight (numLocalExperts * numActiveRanks) (some 1) 1 numActiveRanks
    else if enableHierarchical
    then rebalanceExpertsHierarchical T weight numReplicas numGroups numNodes numGpus
    else rebalanceExpertsHierarchical T weight numReplicas (some 1) 1 numGpus
  let log2phy ← scatterLog2phy phy2log phyrank logcnt (numLocalExperts * numActiveRanks)
  if numActiveRanks < numGpus then
    let t ← phy2log.view3 weight.rows numActiveRanks
    let (slices, log2phy) ← activeRanks.zipIdx.foldlM (insertRank numLocalExperts) (unbind1 t, log2phy)
    return (← stack1 slices, log2phy, logcnt)
  else
    return (phy2log, log2phy, logcnt)

end Definitions

/-! ## The slices -/

/-- What the slices hold for a slot. -/
def slotOf (slices : List (Mat ℤ)) (numLocal r s : ℕ) : ℤ :=
  match slices[s / numLocal]? with
  | none => 0
  | some slice => slice.cell r (s % numLocal)

/-- The slots that are not in a slice inserted for one of the first `t` ranks. -/
def liveSlots (active : ℕ → Bool) (t n numLocal : ℕ) : Set ℕ :=
  {s | s < n * numLocal ∧ (s / numLocal < t → active (s / numLocal) = true)}

/-- Where a slot is after the insertion of slice `t`. -/
def moved (t numLocal s : ℕ) : ℕ := if t * numLocal ≤ s then s + numLocal else s

section Moving

variable {active : ℕ → Bool} {t n numLocal : ℕ}

theorem le_iff_le_div {s : ℕ} (hlocal : 0 < numLocal) : t * numLocal ≤ s ↔ t ≤ s / numLocal :=
  (Nat.le_div_iff_mul_le hlocal).symm

theorem add_div_local {s : ℕ} (hlocal : 0 < numLocal) : (s + numLocal) / numLocal = s / numLocal + 1 :=
  Nat.add_div_right s hlocal

/-- The insertion moves the live slots to those outside of the new slice. -/
theorem bijOn_moved (hlocal : 0 < numLocal) (htn : t ≤ n) (hinactive : active t = false) :
    Set.BijOn (moved t numLocal) (liveSlots active t n numLocal) (liveSlots active (t + 1) (n + 1) numLocal) := by
  have hadd : (n + 1) * numLocal = n * numLocal + numLocal := by rw [Nat.add_mul, Nat.one_mul]
  have htn' : t * numLocal ≤ n * numLocal := Nat.mul_le_mul_right _ htn
  refine ⟨fun s hs => ?_, fun s hs u hu hsu => ?_, fun s hs => ?_⟩
  · obtain ⟨hlt, hact⟩ := hs
    by_cases hle : t * numLocal ≤ s
    · rw [moved, if_pos hle]
      refine ⟨by omega, fun hdiv => ?_⟩
      rw [add_div_local hlocal] at hdiv
      have := (le_iff_le_div hlocal).mp hle
      omega
    · rw [moved, if_neg hle]
      refine ⟨by omega, fun _ => hact ?_⟩
      rw [le_iff_le_div hlocal] at hle
      omega
  · rw [moved, moved] at hsu
    split at hsu <;> split at hsu <;> omega
  · obtain ⟨hlt, hact⟩ := hs
    rcases Nat.lt_trichotomy (s / numLocal) t with hst | hst | hst
    · have hle : ¬ t * numLocal ≤ s := by
        rw [le_iff_le_div hlocal]
        omega
      refine ⟨s, ⟨by omega, fun _ => hact (by omega)⟩, ?_⟩
      rw [moved, if_neg hle]
    · have := hact (by omega)
      rw [hst, hinactive] at this
      cases this
    · have hle : (t + 1) * numLocal ≤ s := (Nat.le_div_iff_mul_le hlocal).mp hst
      rw [Nat.add_mul, Nat.one_mul] at hle
      have hback : s - numLocal + numLocal = s := Nat.sub_add_cancel (by omega)
      have hdiv : (s - numLocal) / numLocal + 1 = s / numLocal := by
        rw [← add_div_local hlocal, hback]
      refine ⟨s - numLocal, ⟨by omega, fun hlt' => by omega⟩, ?_⟩
      rw [moved, if_pos (by omega), hback]

/-- An active rank changes nothing. -/
theorem liveSlots_succ (hactive : active t = true) :
    liveSlots active (t + 1) n numLocal = liveSlots active t n numLocal := by
  ext s
  refine and_congr_right fun _ => ⟨fun h hlt => h (by omega), fun h hlt => ?_⟩
  rcases Nat.lt_succ_iff_lt_or_eq.mp hlt with hlt | heq
  · exact h hlt
  · rw [heq]
    exact hactive

/-- The slices after an insertion, at a moved slot. -/
theorem slotOf_moved (hlocal : 0 < numLocal) {slices : List (Mat ℤ)} (ht : t ≤ slices.length) (zeros : Mat ℤ)
    (r s : ℕ) : slotOf (slices.take t ++ zeros :: slices.drop t) numLocal r (moved t numLocal s) =
      slotOf slices numLocal r s := by
  by_cases hle : t * numLocal ≤ s
  · have hdiv := (le_iff_le_div hlocal).mp hle
    have hidx : s / numLocal + 1 = (slices.take t).length + ((s / numLocal - t) + 1) := by
      rw [List.length_take]
      omega
    have hdrop : t + (s / numLocal - t) = s / numLocal := by omega
    rw [moved, if_pos hle, slotOf, slotOf, add_div_local hlocal, hidx, List.getElem?_append_right (by omega),
      Nat.add_sub_cancel_left, List.getElem?_cons_succ, List.getElem?_drop, hdrop, Nat.add_mod_right]
  · have hdiv : s / numLocal < t := by
      rw [le_iff_le_div hlocal] at hle
      omega
    rw [moved, if_neg hle, slotOf, slotOf, List.getElem?_append_left (by rw [List.length_take]; omega),
      List.getElem?_take_of_lt hdiv]

/-- The new slice. -/
theorem slotOf_new {slices : List (Mat ℤ)} (ht : t ≤ slices.length) (zeros : Mat ℤ) (r : ℕ) {s : ℕ}
    (hs : s / numLocal = t) :
    slotOf (slices.take t ++ zeros :: slices.drop t) numLocal r s = zeros.cell r (s % numLocal) := by
  have hlen : (slices.take t).length = t := by
    rw [List.length_take]
    omega
  rw [slotOf, hs, List.getElem?_append_right (by omega), hlen, Nat.sub_self, List.getElem?_cons_zero]

end Moving

/-! ## The loop -/

section Loop

variable {active : ℕ → Bool} {numLogical numLocal rows : ℕ} {logcnt : ℕ → ℕ → ℕ}

/-- The slices and `log2phy` after the first `t` ranks. -/
structure Inserting (active : ℕ → Bool) (numLogical numLocal rows : ℕ) (logcnt : ℕ → ℕ → ℕ) (t : ℕ)
    (s : List (Mat ℤ) × Tensor3 ℤ) : Prop where
  nonempty : s.1 ≠ []
  shape : ∀ m ∈ s.1, m.rows = rows ∧ m.cols = numLocal
  dims : s.2.dim0 = rows ∧ s.2.dim1 = numLogical
  agree : ∀ r < rows, MapsAgree numLogical (liveSlots active t s.1.length numLocal) s.2.dim2
    (slotOf s.1 numLocal r) (s.2.cell r) (logcnt r)
  zeros : ∀ r < rows, ∀ i < t, active i = false → ∀ k < numLocal,
    slotOf s.1 numLocal r (position numLocal (i, k)) = 0

theorem Inserting.step {t : ℕ} {s : List (Mat ℤ) × Tensor3 ℤ}
    (h : Inserting active numLogical numLocal rows logcnt t s) (hlocal : 0 < numLocal) (ht : t ≤ s.1.length) :
    ∃ s', insertRank numLocal s (active t, t) = .ok s' ∧
      Inserting active numLogical numLocal rows logcnt (t + 1) s' ∧
      s'.1.length = if active t then s.1.length else s.1.length + 1 := by
  rcases hactive : active t with _ | _
  · obtain ⟨slices, log2phy⟩ := s
    obtain ⟨first, rest, rfl⟩ := List.exists_cons_of_ne_nil h.nonempty
    have hlen : ((first :: rest).take t ++ (⟨first.rows, first.cols, fun _ _ => 0⟩ : Mat ℤ) ::
        (first :: rest).drop t).length = (first :: rest).length + 1 := by
      simp only [List.length_append, List.length_cons, List.length_take, List.length_drop]
      simp only [List.length_cons] at ht
      omega
    refine ⟨_, rfl, ⟨by simp, fun m hm => ?_, h.dims, fun r hr => ?_, fun r hr i hi hact k hk => ?_⟩, hlen⟩
    · rcases List.mem_append.mp hm with hm | hm
      · exact h.shape m (List.mem_of_mem_take hm)
      · rcases List.mem_cons.mp hm with rfl | hm
        · exact h.shape first List.mem_cons_self
        · exact h.shape m (List.mem_of_mem_drop hm)
    · rw [hlen]
      refine (h.agree r hr).relabel (bijOn_moved hlocal ht hactive)
        (fun u _ => slotOf_moved hlocal ht _ r u) (fun l hl k hk u hu hval => ?_) fun l hl k hk hval => ?_
      · show (if _ ≤ log2phy.cell r l k then log2phy.cell r l k + _ else log2phy.cell r l k) = _
        rw [show log2phy.cell r l k = u from hval, moved]
        generalize t * numLocal = bound
        split <;> split <;> omega
      · show (if _ ≤ log2phy.cell r l k then log2phy.cell r l k + _ else log2phy.cell r l k) = _
        rw [show log2phy.cell r l k = -1 from hval, if_neg (by omega)]
    · rcases Nat.lt_succ_iff_lt_or_eq.mp hi with hi | rfl
      · have hbelow : position numLocal (i, k) < t * numLocal := position_lt hi hk
        have hmoved : moved t numLocal (position numLocal (i, k)) = position numLocal (i, k) := by
          rw [moved, if_neg (by omega)]
        rw [← hmoved, slotOf_moved hlocal ht]
        exact h.zeros r hr i hi hact k hk
      · exact slotOf_new ht _ r (position_div hk)
  · refine ⟨s, rfl, ⟨h.nonempty, h.shape, h.dims, fun r hr => ?_, fun r hr i hi hact k hk => ?_⟩, rfl⟩
    · rw [liveSlots_succ hactive]
      exact h.agree r hr
    · rcases Nat.lt_succ_iff_lt_or_eq.mp hi with hi | rfl
      · exact h.zeros r hr i hi hact k hk
      · rw [hactive] at hact
        cases hact

theorem Inserting.run {l : List Bool} {t : ℕ} {s : List (Mat ℤ) × Tensor3 ℤ}
    (h : Inserting active numLogical numLocal rows logcnt t s) (hlocal : 0 < numLocal)
    (hl : ∀ i, l[i]? = some (active (t + i)) ∨ l[i]? = none) (hlen : s.1.length = t + l.count true) :
    ∃ s', (l.zipIdx t).foldlM (insertRank numLocal) s = .ok s' ∧
      Inserting active numLogical numLocal rows logcnt (t + l.length) s' ∧
      s'.1.length = t + l.length := by
  induction l generalizing t s with
  | nil => exact ⟨s, rfl, h, hlen⟩
  | cons a l ih =>
    obtain rfl : a = active t := by
      rcases hl 0 with h0 | h0
      · exact Option.some.inj h0
      · cases h0
    obtain ⟨s₁, hstep, h₁, hlen₁⟩ := h.step hlocal (by omega)
    have hrest : s₁.1.length = t + 1 + l.count true := by
      rw [hlen₁, hlen]
      rcases active t with _ | _
      · rw [List.count_cons_of_ne (by decide)]
        simp only [Bool.false_eq_true, if_false]
        omega
      · rw [List.count_cons_self, if_pos rfl]
        omega
    have hl' (i : ℕ) : l[i]? = some (active (t + 1 + i)) ∨ l[i]? = none := by
      have hi := hl (i + 1)
      rw [List.getElem?_cons_succ] at hi
      rwa [Nat.add_assoc, Nat.add_comm 1 i]
    obtain ⟨s', hrun, h', hlen'⟩ := ih h₁ hl' hrest
    refine ⟨s', ?_, ?_, ?_⟩
    · rw [List.zipIdx_cons, List.foldlM_cons, hstep]
      exact hrun
    · rwa [List.length_cons, Nat.add_comm l.length, ← Nat.add_assoc]
    · rw [hlen', List.length_cons, Nat.add_assoc, Nat.add_comm 1]

end Loop

/-! ## The result -/

section Result

variable {K : Type} [Zero K] [Add K] [LT K] [DecidableLT K] [NatCast K] [Div K] {weight : Mat K}
variable {numReplicas numNodes numGpus : ℕ} {numGroups : Option ℕ} {enableHierarchical : Bool}
  {activeRanks : List Bool}

/-- The slices of a map are the map. -/
theorem slotOf_unbind1 {t : Tensor3 ℤ} {m : Mat ℤ} {rows n numLocal : ℕ} (hdim1 : t.dim1 = n) (hcell : ∀ r < rows, ∀ j < n, ∀ k < numLocal,
      t.cell r j k = m.cell r (position numLocal (j, k))) {r s : ℕ} (hr : r < rows) (hs : s < n * numLocal) :
    slotOf (unbind1 t) numLocal r s = m.cell r s := by
  have hget : (unbind1 t)[s / numLocal]? = some ⟨t.dim0, t.dim2, fun r k => t.cell r (s / numLocal) k⟩ := by
    rw [unbind1, List.getElem?_map, List.getElem?_range (by rw [hdim1]; exact div_lt hs)]
    rfl
  rw [slotOf, hget]
  show t.cell r (s / numLocal) (s % numLocal) = m.cell r s
  rw [hcell r hr _ (div_lt hs) _ (mod_lt hs), position_div_mod]

/-- The stacked slices. -/
theorem exists_stack1 {slices : List (Mat ℤ)} {rows numLocal : ℕ} (hne : slices ≠ [])
    (hshape : ∀ m ∈ slices, m.rows = rows ∧ m.cols = numLocal) :
    ∃ m, stack1 slices = .ok m ∧ m.rows = rows ∧ m.cols = slices.length * numLocal ∧
      ∀ r < rows, ∀ s < slices.length * numLocal, m.cell r s = slotOf slices numLocal r s := by
  obtain ⟨first, rest, rfl⟩ := List.exists_cons_of_ne_nil hne
  obtain ⟨hrows, hcols⟩ := hshape first List.mem_cons_self
  refine ⟨_, rfl, hrows, by rw [← hcols]; rfl, fun r _ s hs => ?_⟩
  have hlt : s / numLocal < (first :: rest).length := div_lt hs
  show ((first :: rest).getD (s / first.cols) first).cell r (s % first.cols) = _
  rw [hcols, slotOf, List.getD_eq_getElem?_getD, List.getElem?_eq_getElem hlt]
  rfl

/-- If all ranks are active, nothing is inserted. -/
theorem rebalanceExperts_of_active (T : Torch K) (hgpus : 0 < numGpus)
    (hactive : activeRanks.count true = numGpus) (hphysical : numReplicas % numGpus = 0) :
    rebalanceExperts T weight numReplicas numGroups numNodes numGpus enableHierarchical activeRanks =
      Eplb.rebalanceExperts T weight numReplicas numGroups numNodes numGpus enableHierarchical := by
  have hslots : numReplicas / numGpus * numGpus = numReplicas := Nat.div_mul_cancel (Nat.dvd_of_mod_eq_zero hphysical)
  rw [rebalanceExperts, Eplb.rebalanceExperts, if_neg hgpus.ne', hactive]
  simp only [Nat.lt_irrefl, if_false, hslots]

/-- If some ranks are inactive and the others have room for all experts, the maps agree on the active ranks,
and the slots of the inactive ones hold the expert `0`. -/
theorem exists_elasticMaps (T : Torch K) (hlayers : 0 < weight.rows) (hcols : 0 < weight.cols)
    (hranks : activeRanks.length = numGpus) (hinactive : activeRanks.count true < numGpus)
    (hroom : weight.cols ≤ numReplicas / numGpus * activeRanks.count true) :
    ∃ phy2log log2phy logcnt,
      rebalanceExperts T weight numReplicas numGroups numNodes numGpus enableHierarchical activeRanks =
        .ok (phy2log, log2phy, logcnt) ∧
      (phy2log.rows = weight.rows ∧ phy2log.cols = numGpus * (numReplicas / numGpus)) ∧
      (log2phy.dim0 = weight.rows ∧ log2phy.dim1 = weight.cols) ∧
      (logcnt.rows = weight.rows ∧ logcnt.cols = weight.cols) ∧
      ∀ r < weight.rows,
        MapsAgree weight.cols {s | s < numGpus * (numReplicas / numGpus) ∧
            activeRanks[s / (numReplicas / numGpus)]? = some true}
          log2phy.dim2 (phy2log.cell r) (log2phy.cell r) (logcnt.cell r) ∧
        ∀ s < numGpus * (numReplicas / numGpus), activeRanks[s / (numReplicas / numGpus)]? = some false →
          phy2log.cell r s = 0 := by
  generalize hlocal : numReplicas / numGpus = numLocal at *
  generalize hcount : activeRanks.count true = numActive at *
  have hprod : 0 < numLocal * numActive := lt_of_lt_of_le hcols hroom
  have hlocalPos : 0 < numLocal := Nat.pos_of_mul_pos_right hprod
  have hactivePos : 0 < numActive := Nat.pos_of_mul_pos_left hprod
  have hdivisible : Divisible weight.cols (numLocal * numActive) 1 1 numActive :=
    ⟨hcols, Nat.one_pos, hactivePos, Nat.mod_one _, Nat.mod_one _, Nat.mod_one _, Nat.mul_mod_left _ _, hroom⟩
  obtain ⟨phy2log, phyrank, logcnt, log2phy, hrun, hscatter, ⟨hrows', hcols'⟩, hdims, hcnt, hmaps⟩ :=
    exists_maps T hlayers hdivisible
  have hphy2log : phy2log.Is weight.rows (numActive * numLocal) phy2log.cell :=
    ⟨hrows', by rw [hcols', Nat.mul_comm], fun _ _ _ _ => rfl⟩
  obtain ⟨t, ht, ht0, ht1, ht2, htcell⟩ := hphy2log.view3_split hlayers hactivePos
  let active : ℕ → Bool := fun i => activeRanks.getD i false
  have hlength : (unbind1 t).length = numActive := by
    rw [unbind1, List.length_map, List.length_range, ht1]
  have hstart : Inserting active weight.cols numLocal weight.rows logcnt.cell 0 (unbind1 t, log2phy) := by
    refine ⟨?_, fun m hm => ?_, hdims, fun r hr => ?_, fun r _ i hi => absurd hi (Nat.not_lt_zero i)⟩
    · rw [← List.length_pos_iff, hlength]
      exact hactivePos
    · obtain ⟨j, -, rfl⟩ := List.mem_map.mp hm
      exact ⟨ht0, ht2⟩
    · have hlive : liveSlots active 0 (unbind1 t).length numLocal = Set.Iio (numLocal * numActive) := by
        ext s
        rw [hlength, Nat.mul_comm]
        exact and_iff_left fun h => absurd h (Nat.not_lt_zero _)
      rw [hlive]
      refine (hmaps r hr).1.relabel (Set.bijOn_id _) (fun s hs => ?_) (fun _ _ _ _ _ _ h => h)
        fun _ _ _ _ h => h
      exact slotOf_unbind1 ht1 htcell hr (by rwa [Nat.mul_comm])
  obtain ⟨⟨slices, log2phy'⟩, hloop, hend, hlen⟩ := hstart.run hlocalPos (l := activeRanks)
    (fun i => by
      rw [Nat.zero_add]
      show _ = some (activeRanks.getD i false) ∨ _
      rw [List.getD_eq_getElem?_getD]
      rcases activeRanks[i]? with _ | a
      · exact Or.inr rfl
      · exact Or.inl rfl)
    (by rw [hlength, Nat.zero_add, hcount])
  rw [Nat.zero_add] at hend hlen
  obtain ⟨stacked, hstack, hstackRows, hstackCols, hstackCell⟩ := exists_stack1 hend.nonempty hend.shape
  have hlen : slices.length = numGpus := hlen.trans hranks
  rw [hlen] at hstackCols hstackCell
  refine ⟨stacked, log2phy', logcnt, ?_, ⟨hstackRows, hstackCols⟩, hend.dims, hcnt, fun r hr => ?_⟩
  · have hgpus : numGpus ≠ 0 := by omega
    rw [rebalanceExperts, hcount]
    simp only [hlocal, hgpus, hinactive, if_true, if_false, hrun, hscatter, ok_bind, ht, hloop, hstack]
    rfl
  · have hagree := hend.agree r hr
    have hlive : liveSlots active activeRanks.length slices.length numLocal =
        {s | s < numGpus * numLocal ∧ activeRanks[s / numLocal]? = some true} := by
      ext s
      rw [hlen]
      refine and_congr_right fun hs => ?_
      have hlt : s / numLocal < activeRanks.length := by
        rw [hranks]
        exact div_lt hs
      show (s / numLocal < activeRanks.length → activeRanks.getD (s / numLocal) false = true) ↔ _
      rw [List.getD_eq_getElem?_getD, List.getElem?_eq_getElem hlt, Option.getD_some, Option.some.injEq]
      exact ⟨fun h => h hlt, fun h _ => h⟩
    rw [show (slices, log2phy').1 = slices from rfl, hlive] at hagree
    refine ⟨hagree.relabel (Set.bijOn_id _) (fun s hs => hstackCell r hr s hs.1) (fun _ _ _ _ _ _ h => h)
      fun _ _ _ _ h => h, fun s hs hdead => ?_⟩
    have hlt : s / numLocal < activeRanks.length := by
      rw [hranks]
      exact div_lt hs
    have hact : active (s / numLocal) = false := by
      show activeRanks.getD _ _ = _
      rw [List.getD_eq_getElem?_getD, hdead]
      rfl
    have hzero := hend.zeros r hr _ hlt hact _ (mod_lt hs)
    rw [position_div_mod] at hzero
    rw [hstackCell r hr s hs]
    exact hzero

/-- If some ranks are inactive and the others have room for all experts, the result is a placement on the
active ranks: the maps agree there, the slots of the inactive ranks hold the expert `0`, and no entry of
`log2phy` leads to them. -/
theorem elastic_maps_agree (T : Torch K) (hlayers : 0 < weight.rows) (hcols : 0 < weight.cols)
    (hranks : activeRanks.length = numGpus) (hinactive : activeRanks.count true < numGpus)
    (hroom : weight.cols ≤ numReplicas / numGpus * activeRanks.count true) :
    ∃ phy2log log2phy logcnt,
      rebalanceExperts T weight numReplicas numGroups numNodes numGpus enableHierarchical activeRanks =
        .ok (phy2log, log2phy, logcnt) ∧
      (phy2log.rows = weight.rows ∧ phy2log.cols = numGpus * (numReplicas / numGpus)) ∧
      (log2phy.dim0 = weight.rows ∧ log2phy.dim1 = weight.cols) ∧
      (logcnt.rows = weight.rows ∧ logcnt.cols = weight.cols) ∧
      ∀ r < weight.rows,
        MapsAgree weight.cols {s | s < numGpus * (numReplicas / numGpus) ∧
            activeRanks[s / (numReplicas / numGpus)]? = some true}
          log2phy.dim2 (phy2log.cell r) (log2phy.cell r) (logcnt.cell r) ∧
        ∀ s < numGpus * (numReplicas / numGpus), activeRanks[s / (numReplicas / numGpus)]? = some false →
          phy2log.cell r s = 0 ∧ ∀ l < weight.cols, ∀ k < log2phy.dim2, log2phy.cell r l k ≠ s := by
  obtain ⟨phy2log, log2phy, logcnt, hrun, hphy, hlog, hcnt, hmaps⟩ :=
    exists_elasticMaps T hlayers hcols hranks hinactive hroom
  refine ⟨phy2log, log2phy, logcnt, hrun, hphy, hlog, hcnt, fun r hr => ?_⟩
  obtain ⟨hagree, hzero⟩ := hmaps r hr
  refine ⟨hagree, fun s hs hdead => ⟨hzero s hs hdead, fun l hl k hk hval => ?_⟩⟩
  rcases Nat.lt_or_ge k (logcnt.cell r l) with hlt | hge
  · obtain ⟨u, hu, huval, -⟩ := hagree.slot l hl k hlt
    rw [huval, Int.natCast_inj] at hval
    rw [← hval, hu.2] at hdead
    cases hdead
  · rw [hagree.pad l hl k hk hge] at hval
    omega

/-- Four experts on four GPUs of two, of which the second has failed. -/
theorem elastic_maps_agree_sample : ∃ phy2log log2phy logcnt,
    rebalanceExperts (Torch.exact ℚ) sampleWeight 8 (some 1) 1 4 true [true, false, true, true] =
      .ok (phy2log, log2phy, logcnt) ∧
      MapsAgree 4 {s | s < 8 ∧ [true, false, true, true][s / 2]? = some true} log2phy.dim2
        (phy2log.cell 0) (log2phy.cell 0) (logcnt.cell 0) := by
  obtain ⟨phy2log, log2phy, logcnt, hrun, -, -, -, hagree⟩ :=
    @elastic_maps_agree ℚ _ _ _ _ _ _ sampleWeight 8 1 4 (some 1) true [true, false, true, true]
      (Torch.exact ℚ) (by decide) (by decide) rfl (by decide) (by decide)
  exact ⟨phy2log, log2phy, logcnt, hrun, (hagree 0 (by decide)).1⟩

end Result

end MoeSpecialization.Eplb.Elastic
