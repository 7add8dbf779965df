import MoeSpecialization.Common.Balance
import MoeSpecialization.Common.TensorIndex
import Mathlib.Data.List.Sort

/-!
# Packing weighted items

Reference: `balanced_packing` in `sglang/srt/eplb/eplb_algorithms/deepseek.py` and `pack_groups` in
`sglang/srt/eplb/eplb_algorithms/deepseek_vec.py`.

The items of a row are taken from the heaviest on, and each goes into the lightest pack that still has
room. Which of several equal values a library call returns first is not fixed, so the sorted order and the
position of a maximum are parameters (`Torch`); the loop itself is the code's. Every pack gets the same
number of items, and an item's rank is its place in the pack (`balancedPacking_fills`), whatever the
comparisons do; with exact ones the loads differ by at most the heaviest item
(`balancedPacking_balanced`).
-/

namespace MoeSpecialization.Eplb

open Py Filling

/-- What the load balancer takes from `torch` without knowing the order among equal values: the indices of
`w.sort(-1, descending=True)` and of `w.max(dim=-1)` for every row, and what `torch.empty_like` holds. -/
structure Torch (K : Type) where
  sortIndices : Mat K → ℕ → List ℕ
  maxIndices : Mat K → ℕ → ℕ
  emptyCell : ℕ → ℕ → ℤ
  sortIndices_perm : ∀ w : Mat K, ∀ r < w.rows, (sortIndices w r).Perm (List.range w.cols)
  maxIndices_lt : ∀ w : Mat K, ∀ r < w.rows, 0 < w.cols → maxIndices w r < w.cols

/-- The comparisons are those of an order: no value is a NaN. -/
structure Torch.Ordered {K : Type} [LinearOrder K] (T : Torch K) : Prop where
  sorted : ∀ w : Mat K, ∀ r < w.rows,
    (T.sortIndices w r).Pairwise fun i j => w.cell r j ≤ w.cell r i
  maximal : ∀ w : Mat K, ∀ r < w.rows, ∀ c < w.cols, w.cell r c ≤ w.cell r (T.maxIndices w r)

/-- A library that sorts stably and returns the first maximum. -/
def Torch.exact (K : Type) [LinearOrder K] : Torch K where
  sortIndices w r := (List.range w.cols).insertionSort fun i j => w.cell r j ≤ w.cell r i
  maxIndices w r := ((List.range w.cols).argmax (w.cell r)).getD 0
  emptyCell _ _ := 0
  sortIndices_perm _ _ _ := List.perm_insertionSort _ _
  maxIndices_lt w r _ hcols := by
    rcases hmax : (List.range w.cols).argmax (w.cell r) with _ | c
    · rwa [Option.getD_none]
    · exact List.mem_range.mp (List.argmax_mem hmax)

theorem Torch.exact_ordered (K : Type) [LinearOrder K] : (Torch.exact K).Ordered := by
  constructor
  · intro w r _
    have : Std.Total fun i j => w.cell r j ≤ w.cell r i := ⟨fun i j => le_total _ _⟩
    have : IsTrans ℕ fun i j => w.cell r j ≤ w.cell r i := ⟨fun i j k hij hjk => le_trans hjk hij⟩
    exact List.pairwise_insertionSort _ _
  · intro w r _ c hc
    have hc := List.mem_range.mpr hc
    show w.cell r c ≤ w.cell r (((List.range w.cols).argmax (w.cell r)).getD 0)
    rcases hmax : (List.range w.cols).argmax (w.cell r) with _ | d
    · rw [List.argmax_eq_none.mp hmax] at hc
      cases hc
    · exact List.le_of_mem_argmax hc hmax

/-- `min(items, key=...)`: the first item than which no later one is less. -/
def minBy (less : ℕ → ℕ → Bool) : List ℕ → Option ℕ
  | [] => none
  | p :: ps => some (ps.foldl (fun best q => if less q best then q else best) p)

section Definitions

variable {K : Type} [Zero K] [Add K] [LT K] [DecidableLT K]

/-- The lists of a row's loop, and the row of the result. -/
structure PackState (K : Type) where
  packWeights : ℕ → K
  packItems : ℕ → ℕ
  packIndex : ℕ → ℤ
  rankInPack : ℕ → ℤ

def PackState.init : PackState K := ⟨fun _ => 0, fun _ => 0, fun _ => -1, fun _ => -1⟩

/-- The item is the next one of the pack. -/
def PackState.put (s : PackState K) (weight : ℕ → K) (group pack : ℕ) : PackState K where
  packWeights := Function.update s.packWeights pack (s.packWeights pack + weight group)
  packItems := Function.update s.packItems pack (s.packItems pack + 1)
  packIndex := Function.update s.packIndex group pack
  rankInPack := Function.update s.rankInPack group (s.packItems pack)

/-- The loop body of `balanced_packing`. -/
def packStep (weight : ℕ → K) (numPacks groupsPerPack : ℕ) (s : PackState K) (group : ℕ) :
    Except Error (PackState K) :=
  match minBy (fun q p => s.packWeights q < s.packWeights p)
    ((List.range numPacks).filter fun i => s.packItems i < groupsPerPack) with
  | none => .error (.valueError "min() iterable argument is empty")
  | some pack =>
    if s.packItems pack < groupsPerPack then .ok (s.put weight group pack) else .error .assertionError

/-- `balanced_packing`. -/
def balancedPacking (T : Torch K) (weight : Mat K) (numPacks : ℕ) : Except Error (Mat ℤ × Mat ℤ) := do
  if numPacks = 0 then throw .zeroDivisionError
  if weight.cols % numPacks ≠ 0 then throw .assertionError
  let groupsPerPack := weight.cols / numPacks
  if groupsPerPack = 1 then
    return (Mat.arange weight.rows weight.cols, ⟨weight.rows, weight.cols, fun _ _ => 0⟩)
  let rows ← (List.range weight.rows).mapM fun i =>
    (T.sortIndices weight i).foldlM (packStep (weight.cell i) numPacks groupsPerPack) .init
  return (⟨weight.rows, weight.cols, fun i => (rows.getD i .init).packIndex⟩,
    ⟨weight.rows, weight.cols, fun i => (rows.getD i .init).rankInPack⟩)

/-- `key_func(q) < key_func(p)` in `pack_groups`: a full node has the key `(1, 0)`, another one
`(0, node_tokens)`. -/
def keyLess (groupsPerRank : ℕ) (nodeTokens : ℕ → K) (nodeGroups : ℕ → ℕ) (q p : ℕ) : Bool :=
  if groupsPerRank ≤ nodeGroups q then false
  else if groupsPerRank ≤ nodeGroups p then true
  else nodeTokens q < nodeTokens p

/-- The lists of a layer's loop in `pack_groups`, and the row of the result. -/
structure NodeState (K : Type) where
  nodeTokens : ℕ → K
  nodeGroups : ℕ → ℕ
  ret : ℕ → ℤ

def NodeState.init : NodeState K := ⟨fun _ => 0, fun _ => 0, fun _ => -1⟩

/-- The loop body of `pack_groups`. -/
def packGroupsStep (tokens : ℕ → K) (numNodes groupsPerRank : ℕ) (s : NodeState K) (group : ℕ) :
    Except Error (NodeState K) :=
  match minBy (keyLess groupsPerRank s.nodeTokens s.nodeGroups) (List.range numNodes) with
  | none => .error (.valueError "min() iterable argument is empty")
  | some rank =>
    if s.nodeGroups rank < groupsPerRank then
      .ok {
        nodeTokens := Function.update s.nodeTokens rank (s.nodeTokens rank + tokens group)
        nodeGroups := Function.update s.nodeGroups rank (s.nodeGroups rank + 1)
        ret := Function.update s.ret group (rank * groupsPerRank + s.nodeGroups rank : ℕ) }
    else .error .assertionError

/-- `pack_groups`. -/
def packGroups (T : Torch K) (tokensPerGroup : Mat K) (numNodes : ℕ) : Except Error (Mat ℤ) := do
  if numNodes = 0 then throw .zeroDivisionError
  if tokensPerGroup.cols % numNodes ≠ 0 then throw .assertionError
  let groupsPerRank := tokensPerGroup.cols / numNodes
  let rows ← (List.range tokensPerGroup.rows).mapM fun layer =>
    (T.sortIndices tokensPerGroup layer).foldlM
      (packGroupsStep (tokensPerGroup.cell layer) numNodes groupsPerRank) .init
  return ⟨tokensPerGroup.rows, tokensPerGroup.cols, fun layer => (rows.getD layer .init).ret⟩

end Definitions

/-! ## The smallest item -/

section MinBy

variable {less : ℕ → ℕ → Bool}

theorem foldl_best_mem (p : ℕ) (ps : List ℕ) :
    ps.foldl (fun best q => if less q best then q else best) p ∈ p :: ps := by
  induction ps generalizing p with
  | nil => exact List.mem_singleton.mpr rfl
  | cons q ps ih =>
    rw [List.foldl_cons]
    split
    · exact List.mem_cons_of_mem _ (ih q)
    · rcases List.mem_cons.mp (ih p) with heq | hmem
      · rw [heq]
        exact List.mem_cons_self
      · exact List.mem_cons_of_mem _ (List.mem_cons_of_mem _ hmem)

theorem minBy_mem {l : List ℕ} {p : ℕ} (h : minBy less l = some p) : p ∈ l := by
  rcases l with _ | ⟨a, l⟩
  · cases h
  · rw [← Option.some.inj h]
    exact foldl_best_mem a l

theorem exists_minBy {l : List ℕ} {a : ℕ} (h : a ∈ l) : ∃ p, minBy less l = some p := by
  rcases l with _ | ⟨b, l⟩
  · cases h
  · exact ⟨_, rfl⟩

theorem foldl_best_le {K : Type} [LinearOrder K] (key : ℕ → K) (p : ℕ) (ps : List ℕ) :
    ∀ q ∈ p :: ps, key (ps.foldl (fun best q => if key q < key best then q else best) p) ≤ key q := by
  induction ps generalizing p with
  | nil =>
    intro q hq
    rw [List.mem_singleton.mp hq]
    exact le_rfl
  | cons a ps ih =>
    intro q hq
    rw [List.foldl_cons]
    split
    · rename_i hlt
      rcases List.mem_cons.mp hq with rfl | hq
      · exact le_trans (ih a a List.mem_cons_self) hlt.le
      · exact ih a q hq
    · rename_i hge
      rcases List.mem_cons.mp hq with rfl | hq
      · exact ih q q List.mem_cons_self
      · rcases List.mem_cons.mp hq with rfl | hq
        · exact le_trans (ih p p List.mem_cons_self) (not_lt.mp hge)
        · exact ih p q (List.mem_cons_of_mem _ hq)

theorem minBy_le {K : Type} [LinearOrder K] {key : ℕ → K} {l : List ℕ} {p q : ℕ}
    (h : minBy (fun q p => key q < key p) l = some p) (hq : q ∈ l) : key p ≤ key q := by
  rcases l with _ | ⟨a, l⟩
  · cases h
  · rw [← Option.some.inj h]
    simpa using foldl_best_le key a l q hq

end MinBy

/-! ## One row -/

section Row

variable {K : Type} {weight : ℕ → K} {numPacks groupsPerPack : ℕ}

/-- The place of an item. -/
def PackState.place (s : PackState K) (g : ℕ) : ℕ × ℕ := ((s.packIndex g).toNat, (s.rankInPack g).toNat)

/-- The packs after the items of `S`. -/
structure PackState.Inv (numPacks groupsPerPack : ℕ) (S : Finset ℕ) (s : PackState K) : Prop where
  fills : Fills (S : Set ℕ) s.place numPacks s.packItems
  index_nonneg : ∀ g ∈ S, 0 ≤ s.packIndex g
  rank_nonneg : ∀ g ∈ S, 0 ≤ s.rankInPack g
  items_le : ∀ p < numPacks, s.packItems p ≤ groupsPerPack
  sum_items : ∑ p ∈ Finset.range numPacks, s.packItems p = S.card

theorem PackState.inv_init [Zero K] : (PackState.init : PackState K).Inv numPacks groupsPerPack ∅ where
  fills := by
    rw [Finset.coe_empty]
    exact fills_empty _ _
  index_nonneg := fun g hg => absurd hg (Finset.notMem_empty g)
  rank_nonneg := fun g hg => absurd hg (Finset.notMem_empty g)
  items_le := fun _ _ => Nat.zero_le _
  sum_items := by simp [PackState.init]

/-- The items still to come are new after the next one. -/
theorem notMem_insert {g : ℕ} {l : List ℕ} {S : Finset ℕ} (hnodup : (g :: l).Nodup)
    (hnew : ∀ x ∈ g :: l, x ∉ S) : ∀ x ∈ l, x ∉ insert g S := by
  intro x hx hmem
  rcases Finset.mem_insert.mp hmem with rfl | hmem
  · exact (List.nodup_cons.mp hnodup).1 hx
  · exact hnew x (List.mem_cons_of_mem g hx) hmem

variable [Add K]

theorem place_put (s : PackState K) (group pack : ℕ) :
    (s.put weight group pack).place = Function.update s.place group (pack, s.packItems pack) := by
  funext g
  by_cases hg : g = group
  · subst hg
    simp [PackState.place, PackState.put]
  · simp [PackState.place, PackState.put, hg]

variable [LT K] [DecidableLT K]

/-- What one step does. -/
theorem packStep_eq_ok {s s' : PackState K} {group : ℕ}
    (h : packStep weight numPacks groupsPerPack s group = .ok s') :
    ∃ pack < numPacks, s.packItems pack < groupsPerPack ∧ s' = s.put weight group pack ∧
      minBy (fun q p => s.packWeights q < s.packWeights p)
        ((List.range numPacks).filter fun i => s.packItems i < groupsPerPack) = some pack := by
  unfold packStep at h
  split at h
  · cases h
  · rename_i pack hmin
    split at h
    · rename_i hroom
      cases h
      have hmem := List.mem_filter.mp (minBy_mem hmin)
      exact ⟨pack, List.mem_range.mp hmem.1, hroom, rfl, hmin⟩
    · cases h

theorem exists_packStep {s : PackState K} (group : ℕ)
    (h : ∃ p < numPacks, s.packItems p < groupsPerPack) :
    ∃ s', packStep weight numPacks groupsPerPack s group = .ok s' := by
  obtain ⟨p, hp, hroom⟩ := h
  have hp : p ∈ (List.range numPacks).filter fun i => s.packItems i < groupsPerPack :=
    List.mem_filter.mpr ⟨List.mem_range.mpr hp, decide_eq_true hroom⟩
  obtain ⟨pack, hmin⟩ : ∃ pack, minBy (fun q p => s.packWeights q < s.packWeights p)
      ((List.range numPacks).filter fun i => s.packItems i < groupsPerPack) = some pack := exists_minBy hp
  have hroom := (List.mem_filter.mp (minBy_mem hmin)).2
  refine ⟨s.put weight group pack, ?_⟩
  unfold packStep
  rw [hmin]
  exact if_pos (of_decide_eq_true hroom)

theorem PackState.Inv.step {S : Finset ℕ} {s s' : PackState K} (hs : s.Inv numPacks groupsPerPack S)
    {group : ℕ} (hnew : group ∉ S) (h : packStep weight numPacks groupsPerPack s group = .ok s') :
    s'.Inv numPacks groupsPerPack (insert group S) := by
  obtain ⟨pack, hpack, hroom, rfl, -⟩ := packStep_eq_ok h
  refine ⟨?_, fun g hg => ?_, fun g hg => ?_, fun p hp => ?_, ?_⟩
  · rw [place_put, Finset.coe_insert]
    exact hs.fills.insert (by rwa [Finset.mem_coe]) hpack
  · by_cases hgg : g = group
    · simp [PackState.put, hgg]
    · show 0 ≤ Function.update s.packIndex group (pack : ℤ) g
      rw [Function.update_of_ne hgg]
      exact hs.index_nonneg g (Finset.mem_of_mem_insert_of_ne hg hgg)
  · by_cases hgg : g = group
    · simp [PackState.put, hgg]
    · show 0 ≤ Function.update s.rankInPack group (s.packItems pack : ℤ) g
      rw [Function.update_of_ne hgg]
      exact hs.rank_nonneg g (Finset.mem_of_mem_insert_of_ne hg hgg)
  · show Function.update s.packItems pack (s.packItems pack + 1) p ≤ groupsPerPack
    by_cases hpp : p = pack
    · rw [hpp, Function.update_self]
      exact hroom
    · rw [Function.update_of_ne hpp]
      exact hs.items_le p hp
  · rw [Finset.card_insert_of_notMem hnew, ← hs.sum_items]
    exact sum_update_succ s.packItems hpack

/-- The loop never runs out of room. -/
theorem PackState.Inv.exists_run {l : List ℕ} {S : Finset ℕ} {s : PackState K}
    (hs : s.Inv numPacks groupsPerPack S) (hnodup : l.Nodup) (hnew : ∀ g ∈ l, g ∉ S)
    (hroom : S.card + l.length ≤ numPacks * groupsPerPack) :
    ∃ s', l.foldlM (packStep weight numPacks groupsPerPack) s = .ok s' ∧
      s'.Inv numPacks groupsPerPack (S ∪ l.toFinset) := by
  induction l generalizing S s with
  | nil =>
    rw [List.toFinset_nil, Finset.union_empty]
    exact ⟨s, rfl, hs⟩
  | cons g l ih =>
    rw [List.length_cons] at hroom
    have hlt : ∑ p ∈ Finset.range numPacks, s.packItems p < numPacks * groupsPerPack := by
      rw [hs.sum_items]
      omega
    have hg : g ∉ S := hnew g List.mem_cons_self
    obtain ⟨s₁, hstep⟩ : ∃ s₁, packStep weight numPacks groupsPerPack s g = .ok s₁ :=
      exists_packStep g (exists_lt_of_sum_lt hlt)
    have hroom' : (insert g S).card + l.length ≤ numPacks * groupsPerPack := by
      rw [Finset.card_insert_of_notMem hg]
      omega
    obtain ⟨s', hrun, hs'⟩ := ih (hs.step hg hstep) hnodup.of_cons (notMem_insert hnodup hnew) hroom'
    refine ⟨s', ?_, ?_⟩
    · rw [List.foldlM_cons, hstep]
      exact hrun
    · rwa [List.toFinset_cons, Finset.union_insert, ← Finset.insert_union]

/-- A whole row: every pack is full. -/
theorem exists_packRow [Zero K] {l : List ℕ} (hl : l.Perm (List.range (numPacks * groupsPerPack))) :
    ∃ s', l.foldlM (packStep weight numPacks groupsPerPack) .init = .ok s' ∧
      s'.Inv numPacks groupsPerPack (Finset.range (numPacks * groupsPerPack)) ∧
      ∀ p < numPacks, s'.packItems p = groupsPerPack := by
  have hnodup : l.Nodup := hl.nodup_iff.mpr List.nodup_range
  have hset : ∅ ∪ l.toFinset = Finset.range (numPacks * groupsPerPack) := by
    rw [Finset.empty_union, List.toFinset_eq_of_perm _ _ hl]
    ext g
    simp
  have hlen : (∅ : Finset ℕ).card + l.length ≤ numPacks * groupsPerPack := by
    rw [Finset.card_empty, hl.length_eq, List.length_range, Nat.zero_add]
  obtain ⟨s', hrun, hs'⟩ : ∃ s', l.foldlM (packStep weight numPacks groupsPerPack) .init = .ok s' ∧
      s'.Inv numPacks groupsPerPack (∅ ∪ l.toFinset) :=
    PackState.inv_init.exists_run hnodup (fun g _ => Finset.notMem_empty g) hlen
  rw [hset] at hs'
  refine ⟨s', hrun, hs', eq_of_sum_eq hs'.items_le ?_⟩
  rw [hs'.sum_items, Finset.card_range]

end Row

/-! ## The packed rows -/

section Rows

variable {K : Type} [Zero K] [Add K] [LT K] [DecidableLT K] {T : Torch K} {weight : Mat K}
variable {numPacks groupsPerPack : ℕ}

/-- Packs of one item. -/
theorem balancedPacking_of_one (hpos : 0 < numPacks) (hcols : weight.cols = numPacks) :
    balancedPacking T weight numPacks =
      .ok (Mat.arange weight.rows weight.cols, ⟨weight.rows, weight.cols, fun _ _ => 0⟩) := by
  rw [balancedPacking, hcols, if_neg hpos.ne', Nat.mod_self, Nat.div_self hpos]
  rfl

/-- Otherwise the result is that of the loop over the rows. -/
theorem exists_balancedPacking (hpos : 0 < numPacks) (hcols : weight.cols = numPacks * groupsPerPack)
    (hone : groupsPerPack ≠ 1) :
    ∃ rows : ℕ → PackState K,
      balancedPacking T weight numPacks = .ok (⟨weight.rows, weight.cols, fun i => (rows i).packIndex⟩,
        ⟨weight.rows, weight.cols, fun i => (rows i).rankInPack⟩) ∧
      ∀ i < weight.rows,
        (T.sortIndices weight i).foldlM (packStep (weight.cell i) numPacks groupsPerPack) .init =
            .ok (rows i) ∧
          (rows i).Inv numPacks groupsPerPack (Finset.range weight.cols) ∧
          ∀ p < numPacks, (rows i).packItems p = groupsPerPack := by
  have hmod : weight.cols % numPacks = 0 := by rw [hcols, Nat.mul_mod_right]
  have hdiv : weight.cols / numPacks = groupsPerPack := by rw [hcols, Nat.mul_div_cancel_left _ hpos]
  have hrow : ∀ i < weight.rows, ∃ s,
      (T.sortIndices weight i).foldlM (packStep (weight.cell i) numPacks groupsPerPack) .init = .ok s ∧
        ((T.sortIndices weight i).foldlM (packStep (weight.cell i) numPacks groupsPerPack) .init = .ok s ∧
          s.Inv numPacks groupsPerPack (Finset.range weight.cols) ∧
          ∀ p < numPacks, s.packItems p = groupsPerPack) := by
    intro i hi
    have hperm := T.sortIndices_perm weight i hi
    rw [hcols] at hperm ⊢
    obtain ⟨s, hs, hinv⟩ : ∃ s,
        (T.sortIndices weight i).foldlM (packStep (weight.cell i) numPacks groupsPerPack) .init = .ok s ∧
          s.Inv numPacks groupsPerPack (Finset.range (numPacks * groupsPerPack)) ∧
          ∀ p < numPacks, s.packItems p = groupsPerPack := exists_packRow hperm
    exact ⟨s, hs, hs, hinv⟩
  obtain ⟨rows, hrows, hinv⟩ := exists_rows .init hrow
  refine ⟨fun i => rows.getD i .init, ?_, hinv⟩
  rw [balancedPacking, if_neg hpos.ne', hmod, hdiv]
  simp only [hone, if_false, hrows]
  rfl

/-- Every pack gets the same number of items, and the ranks of a pack's items are its places. No
comparison matters for that. -/
theorem balancedPacking_fills (T : Torch K) (hpos : 0 < numPacks)
    (hcols : weight.cols = numPacks * groupsPerPack) :
    ∃ packIndex rankInPack, balancedPacking T weight numPacks = .ok (packIndex, rankInPack) ∧
      ∃ pack rank : ℕ → ℕ → ℕ, packIndex.Is weight.rows weight.cols (fun r g => (pack r g : ℤ)) ∧
        rankInPack.Is weight.rows weight.cols (fun r g => (rank r g : ℤ)) ∧
        ∀ r < weight.rows, Fills (Set.Iio weight.cols) (fun g => (pack r g, rank r g)) numPacks
          fun _ => groupsPerPack := by
  by_cases hone : groupsPerPack = 1
  · rw [hone, Nat.mul_one] at hcols
    refine ⟨_, _, balancedPacking_of_one hpos hcols, fun _ g => g, fun _ _ => 0, Mat.arange_is _ _,
      ⟨rfl, rfl, fun _ _ _ _ => rfl⟩, fun r _ => ?_⟩
    rw [hcols, hone]
    exact fills_ones numPacks
  · obtain ⟨rows, hrun, hrows⟩ := exists_balancedPacking (T := T) hpos hcols hone
    refine ⟨_, _, hrun, fun r g => ((rows r).place g).1, fun r g => ((rows r).place g).2,
      ⟨rfl, rfl, fun r hr g hg => ?_⟩, ⟨rfl, rfl, fun r hr g hg => ?_⟩, fun r hr => ?_⟩
    · exact (Int.toNat_of_nonneg ((hrows r hr).2.1.index_nonneg g (Finset.mem_range.mpr hg))).symm
    · exact (Int.toNat_of_nonneg ((hrows r hr).2.1.rank_nonneg g (Finset.mem_range.mpr hg))).symm
    · have hfills := (hrows r hr).2.1.fills
      rw [Finset.coe_range] at hfills
      exact hfills.congr (fun g _ => rfl) (hrows r hr).2.2

end Rows

/-! ## Balance -/

section Balanced

variable {K : Type} [Field K] [LinearOrder K]

/-- The weight of the items of `S` that are in pack `p`. -/
def packLoad (weight : ℕ → K) (packIndex : ℕ → ℤ) (S : Finset ℕ) (p : ℕ) : K :=
  ∑ g ∈ S, if packIndex g = p then weight g else 0

variable {weight : ℕ → K} {numPacks groupsPerPack : ℕ}

/-- The loop's list of weights is the load of the packs. -/
theorem packWeights_run {l : List ℕ} {S : Finset ℕ} {s s' : PackState K} (hnodup : l.Nodup)
    (hnew : ∀ g ∈ l, g ∉ S) (hs : ∀ p, s.packWeights p = packLoad weight s.packIndex S p)
    (hrun : l.foldlM (packStep weight numPacks groupsPerPack) s = .ok s') :
    ∀ p, s'.packWeights p = packLoad weight s'.packIndex (S ∪ l.toFinset) p := by
  induction l generalizing S s with
  | nil =>
    rw [← Except.ok.inj hrun, List.toFinset_nil, Finset.union_empty]
    exact hs
  | cons g l ih =>
    rw [List.foldlM_cons] at hrun
    obtain ⟨s₁, hstep, hrun⟩ := except_bind_eq_ok.mp hrun
    have hg : g ∉ S := hnew g List.mem_cons_self
    rw [List.toFinset_cons, Finset.union_insert, ← Finset.insert_union]
    refine ih hnodup.of_cons (notMem_insert hnodup hnew) (fun p => ?_) hrun
    obtain ⟨pack, -, -, rfl, -⟩ := packStep_eq_ok hstep
    have hother : ∑ x ∈ S, (if Function.update s.packIndex g (pack : ℤ) x = p then weight x else 0) =
        packLoad weight s.packIndex S p := by
      refine Finset.sum_congr rfl fun x hx => ?_
      rw [Function.update_of_ne]
      rintro rfl
      exact hg hx
    show Function.update s.packWeights pack (s.packWeights pack + weight g) p =
      ∑ x ∈ insert g S, if Function.update s.packIndex g (pack : ℤ) x = p then weight x else 0
    rw [Finset.sum_insert hg, hother, ← hs p, Function.update_self]
    by_cases hp : p = pack
    · rw [hp, Function.update_self, if_pos rfl, add_comm]
    · have hne : ¬((pack : ℤ) = p) := by omega
      rw [Function.update_of_ne hp, if_neg hne, zero_add]

variable [IsStrictOrderedRing K]

/-- The loop keeps the loads balanced. -/
theorem packed_run {M v : K} {l : List ℕ} {S : Finset ℕ} {s s' : PackState K}
    (hs : s.Inv numPacks groupsPerPack S) (hnodup : l.Nodup) (hnew : ∀ g ∈ l, g ∉ S)
    (hsorted : l.Pairwise fun i j => weight j ≤ weight i)
    (hw : ∀ g ∈ l, 0 ≤ weight g ∧ weight g ≤ v ∧ weight g ≤ M)
    (h : Balance.Packed numPacks groupsPerPack M v s.packWeights s.packItems)
    (hrun : l.foldlM (packStep weight numPacks groupsPerPack) s = .ok s') :
    ∃ u, Balance.Packed numPacks groupsPerPack M u s'.packWeights s'.packItems := by
  induction l generalizing S s v with
  | nil =>
    rw [← Except.ok.inj hrun]
    exact ⟨v, h⟩
  | cons g l ih =>
    rw [List.foldlM_cons] at hrun
    obtain ⟨s₁, hstep, hrun⟩ := except_bind_eq_ok.mp hrun
    obtain ⟨hlighter, hsorted⟩ := List.pairwise_cons.mp hsorted
    obtain ⟨hw0, hwv, hwM⟩ := hw g List.mem_cons_self
    have hs₁ := hs.step (hnew g List.mem_cons_self) hstep
    obtain ⟨pack, hpack, -, rfl, hmin⟩ := packStep_eq_ok hstep
    have h₁ := h.add hs.items_le hw0 hwv hwM hpack fun q hq hroom =>
      minBy_le hmin (List.mem_filter.mpr ⟨List.mem_range.mpr hq, decide_eq_true hroom⟩)
    refine ih hs₁ hnodup.of_cons (notMem_insert hnodup hnew) hsorted (fun x hx => ?_) h₁ hrun
    have hx' := hw x (List.mem_cons_of_mem g hx)
    exact ⟨hx'.1, hlighter x hx, hx'.2.2⟩

/-- The loads of a packed row differ by at most the heaviest item. -/
theorem packRow_balanced {n : ℕ} {l : List ℕ} {s : PackState K}
    (hl : l.Perm (List.range n))
    (hsorted : l.Pairwise fun i j => weight j ≤ weight i)
    (hw : ∀ g < n, 0 ≤ weight g) {M : K} (hM : 0 ≤ M)
    (hle : ∀ g < n, weight g ≤ M)
    (hrun : l.foldlM (packStep weight numPacks groupsPerPack) .init = .ok s)
    (hfull : ∀ p < numPacks, s.packItems p = groupsPerPack) {p q : ℕ} (hp : p < numPacks)
    (hq : q < numPacks) :
    packLoad weight s.packIndex (Finset.range n) p ≤
      packLoad weight s.packIndex (Finset.range n) q + M := by
  have hnodup : l.Nodup := hl.nodup_iff.mpr List.nodup_range
  have hmem {g : ℕ} (hg : g ∈ l) : g < n := List.mem_range.mp (hl.mem_iff.mp hg)
  have hset : ∅ ∪ l.toFinset = Finset.range n := by
    ext g
    simp [hl.mem_iff]
  have hloads := packWeights_run hnodup (fun g _ => Finset.notMem_empty g) (fun p => rfl) hrun
  obtain ⟨u, hpacked⟩ := packed_run PackState.inv_init hnodup (fun g _ => Finset.notMem_empty g) hsorted
    (fun g hg => ⟨hw g (hmem hg), hle g (hmem hg), hle g (hmem hg)⟩)
    (Balance.packed_zero numPacks groupsPerPack hM) hrun
  have hsub := hpacked.sub_le hp hq ((hfull p hp).trans (hfull q hq).symm)
  rw [hloads, hloads, hset] at hsub
  linarith

/-- The loads of the packs of a row, on the result. -/
theorem balancedPacking_loads {T : Torch K} (hT : T.Ordered) {weight : Mat K} (hpos : 0 < numPacks)
    (hcols : weight.cols = numPacks * groupsPerPack) {packIndex rankInPack : Mat ℤ}
    (hrun : balancedPacking T weight numPacks = .ok (packIndex, rankInPack)) {r : ℕ} (hr : r < weight.rows)
    (hw : ∀ g < weight.cols, 0 ≤ weight.cell r g) {M : K} (hM : 0 ≤ M)
    (hle : ∀ g < weight.cols, weight.cell r g ≤ M) {p q : ℕ} (hp : p < numPacks) (hq : q < numPacks) :
    packLoad (weight.cell r) (packIndex.cell r) (Finset.range weight.cols) p ≤
      packLoad (weight.cell r) (packIndex.cell r) (Finset.range weight.cols) q + M := by
  by_cases hone : groupsPerPack = 1
  -- every pack holds the item of its own number
  · rw [hone, Nat.mul_one] at hcols
    rw [balancedPacking_of_one hpos hcols] at hrun
    rw [← (Prod.mk.inj (Except.ok.inj hrun)).1]
    have hload (p : ℕ) (hp : p < weight.cols) :
        packLoad (weight.cell r) ((Mat.arange weight.rows weight.cols).cell r) (Finset.range weight.cols) p =
          weight.cell r p := by
      have hcongr : ∀ g ∈ Finset.range weight.cols, (if ((g : ℕ) : ℤ) = p then weight.cell r g else 0) =
          if g = p then weight.cell r g else 0 := by
        intro g _
        simp only [Int.natCast_inj]
      rw [packLoad]
      refine (Finset.sum_congr rfl hcongr).trans ?_
      rw [Finset.sum_ite_eq', if_pos (Finset.mem_range.mpr hp)]
    rw [hload p (by omega), hload q (by omega)]
    have hq0 := hw q (by omega)
    have hpM := hle p (by omega)
    linarith
  · obtain ⟨rows, hrun', hrows⟩ := exists_balancedPacking hpos hcols hone
    rw [hrun'] at hrun
    rw [← (Prod.mk.inj (Except.ok.inj hrun)).1]
    have hperm := T.sortIndices_perm weight r hr
    obtain ⟨hrow, -, hfull⟩ := hrows r hr
    exact packRow_balanced hperm (hT.sorted weight r hr) hw hM hle hrow hfull hp hq

/-- Packing a tensor of non-negative weights into packs that can have one size. Every pack of a row gets as
many items, with the ranks `0, 1, ...`, and the loads of two packs differ by at most the heaviest item of
the row. -/
theorem packs_balanced {T : Torch K} (hT : T.Ordered) {weight : Mat K} {numPacks : ℕ} (hpos : 0 < numPacks)
    (hdiv : weight.cols % numPacks = 0) (hw : ∀ r < weight.rows, ∀ g < weight.cols, 0 ≤ weight.cell r g) :
    ∃ packIndex rankInPack, balancedPacking T weight numPacks = .ok (packIndex, rankInPack) ∧
      (∃ pack rank : ℕ → ℕ → ℕ, packIndex.Is weight.rows weight.cols (fun r g => (pack r g : ℤ)) ∧
        rankInPack.Is weight.rows weight.cols (fun r g => (rank r g : ℤ)) ∧
        ∀ r < weight.rows, Fills (Set.Iio weight.cols) (fun g => (pack r g, rank r g)) numPacks
          fun _ => weight.cols / numPacks) ∧
      ∀ r < weight.rows, ∀ M, 0 ≤ M → (∀ g < weight.cols, weight.cell r g ≤ M) →
        ∀ p < numPacks, ∀ q < numPacks,
          packLoad (weight.cell r) (packIndex.cell r) (Finset.range weight.cols) p ≤
            packLoad (weight.cell r) (packIndex.cell r) (Finset.range weight.cols) q + M := by
  have hcols : weight.cols = numPacks * (weight.cols / numPacks) :=
    (Nat.mul_div_cancel' (Nat.dvd_of_mod_eq_zero hdiv)).symm
  obtain ⟨packIndex, rankInPack, hrun, hfills⟩ := balancedPacking_fills T hpos hcols
  refine ⟨packIndex, rankInPack, hrun, hfills, fun r hr M hM hle p hp q hq => ?_⟩
  exact balancedPacking_loads hT hpos hcols hrun hr (hw r hr) hM hle hp hq

/-- Four items in two packs. -/
def sampleWeight : Mat ℚ := ⟨1, 4, fun _ g => g + 1⟩

theorem sampleWeight_nonneg (r g : ℕ) : 0 ≤ sampleWeight.cell r g :=
  add_nonneg (Nat.cast_nonneg g) zero_le_one

theorem packs_balanced_sample : ∃ packIndex rankInPack,
    balancedPacking (Torch.exact ℚ) sampleWeight 2 = .ok (packIndex, rankInPack) ∧
      ∀ p < 2, ∀ q < 2, packLoad (sampleWeight.cell 0) (packIndex.cell 0) (Finset.range 4) p ≤
        packLoad (sampleWeight.cell 0) (packIndex.cell 0) (Finset.range 4) q + 4 := by
  obtain ⟨packIndex, rankInPack, hrun, -, hbal⟩ :=
    packs_balanced (Torch.exact_ordered ℚ) Nat.two_pos (Nat.mod_self 2) fun r _ g _ => sampleWeight_nonneg r g
  refine ⟨packIndex, rankInPack, hrun, hbal 0 (by decide) 4 (by norm_num) fun g hg => ?_⟩
  have hg : g < 4 := hg
  have hle : ((g + 1 : ℕ) : ℚ) ≤ (4 : ℕ) := Nat.cast_le.mpr hg
  simpa [sampleWeight] using hle

end Balanced

/-! ## The packing of `pack_groups` -/

section PackGroups

variable {K : Type}

section KeyLess

variable [LT K] [DecidableLT K] {cap : ℕ} {tokens : ℕ → K} {groups : ℕ → ℕ}

theorem keyLess_of_le {q : ℕ} (hq : cap ≤ groups q) (p : ℕ) : keyLess cap tokens groups q p = false := by
  rw [keyLess, if_pos hq]

theorem keyLess_of_lt {p q : ℕ} (hp : groups p < cap) (hq : groups q < cap) :
    keyLess cap tokens groups q p = decide (tokens q < tokens p) := by
  rw [keyLess, if_neg (not_le.mpr hq), if_neg (not_le.mpr hp)]

theorem filter_room_of_lt {q : ℕ} (hq : groups q < cap) (ps : List ℕ) :
    (q :: ps).filter (fun i => groups i < cap) = q :: ps.filter fun i => groups i < cap := by
  rw [List.filter_cons, if_pos (decide_eq_true hq)]

theorem filter_room_of_le {q : ℕ} (hq : cap ≤ groups q) (ps : List ℕ) :
    (q :: ps).filter (fun i => groups i < cap) = ps.filter fun i => groups i < cap := by
  rw [List.filter_cons, if_neg (by simpa using hq)]

theorem foldl_keyLess_of_lt {p : ℕ} (hp : groups p < cap) (ps : List ℕ) :
    ps.foldl (fun best q => if keyLess cap tokens groups q best then q else best) p =
      (ps.filter fun i => groups i < cap).foldl
        (fun best q => if decide (tokens q < tokens best) then q else best) p := by
  induction ps generalizing p with
  | nil => rfl
  | cons q ps ih =>
    rw [List.foldl_cons]
    by_cases hq : groups q < cap
    · rw [filter_room_of_lt hq, List.foldl_cons, keyLess_of_lt hp hq]
      split
      · exact ih hq
      · exact ih hp
    · rw [filter_room_of_le (not_lt.mp hq), keyLess_of_le (not_lt.mp hq)]
      exact ih hp

theorem foldl_keyLess_of_le {p : ℕ} (hp : cap ≤ groups p) {ps : List ℕ} (hopen : ∃ q ∈ ps, groups q < cap) :
    some (ps.foldl (fun best q => if keyLess cap tokens groups q best then q else best) p) =
      minBy (fun q p => tokens q < tokens p) (ps.filter fun i => groups i < cap) := by
  induction ps with
  | nil =>
    obtain ⟨q, hq, -⟩ := hopen
    cases hq
  | cons q ps ih =>
    rw [List.foldl_cons]
    by_cases hq : groups q < cap
    · have hless : keyLess cap tokens groups q p = true := by
        rw [keyLess, if_neg (not_le.mpr hq), if_pos hp]
      rw [filter_room_of_lt hq, hless, if_pos rfl, foldl_keyLess_of_lt hq, minBy]
    · rw [filter_room_of_le (not_lt.mp hq), keyLess_of_le (not_lt.mp hq)]
      refine ih ?_
      obtain ⟨x, hx, hxcap⟩ := hopen
      rcases List.mem_cons.mp hx with rfl | hx
      · exact absurd hxcap hq
      · exact ⟨x, hx, hxcap⟩

/-- The keys pass over the full nodes. -/
theorem minBy_keyLess {ps : List ℕ} (hopen : ∃ q ∈ ps, groups q < cap) :
    minBy (keyLess cap tokens groups) ps =
      minBy (fun q p => tokens q < tokens p) (ps.filter fun i => groups i < cap) := by
  rcases ps with _ | ⟨a, ps⟩
  · obtain ⟨q, hq, -⟩ := hopen
    cases hq
  · by_cases ha : groups a < cap
    · rw [filter_room_of_lt ha, minBy, minBy, foldl_keyLess_of_lt ha]
    · obtain ⟨x, hx, hxcap⟩ := hopen
      rcases List.mem_cons.mp hx with rfl | hx
      · exact absurd hxcap ha
      · rw [filter_room_of_le (not_lt.mp ha), minBy]
        exact foldl_keyLess_of_le (not_lt.mp ha) ⟨x, hx, hxcap⟩

end KeyLess

section Simulation

variable [Add K] [LT K] [DecidableLT K] {tokens : ℕ → K} {numNodes groupsPerRank : ℕ}

/-- The loops of `pack_groups` and `balanced_packing` have put the items of `S` in the same places. -/
structure NodeState.Sim (groupsPerRank : ℕ) (S : Finset ℕ) (n : NodeState K) (s : PackState K) : Prop where
  tokens_eq : n.nodeTokens = s.packWeights
  groups_eq : n.nodeGroups = s.packItems
  ret_eq : ∀ g ∈ S, n.ret g = s.packIndex g * groupsPerRank + s.rankInPack g

theorem NodeState.Sim.step {S : Finset ℕ} {n : NodeState K} {s s' : PackState K} {group : ℕ}
    (h : n.Sim groupsPerRank S s) (hstep : packStep tokens numNodes groupsPerRank s group = .ok s') :
    ∃ n', packGroupsStep tokens numNodes groupsPerRank n group = .ok n' ∧
      n'.Sim groupsPerRank (insert group S) s' := by
  obtain ⟨pack, hpack, hroom, rfl, hmin⟩ := packStep_eq_ok hstep
  have hmin' : minBy (keyLess groupsPerRank n.nodeTokens n.nodeGroups) (List.range numNodes) = some pack := by
    rw [h.tokens_eq, h.groups_eq, minBy_keyLess ⟨pack, List.mem_range.mpr hpack, hroom⟩, hmin]
  have hroom' : n.nodeGroups pack < groupsPerRank := by rwa [h.groups_eq]
  refine ⟨_, by unfold packGroupsStep; rw [hmin']; exact if_pos hroom', ?_, ?_, fun g hg => ?_⟩
  · rw [h.tokens_eq]
    rfl
  · rw [h.groups_eq]
    rfl
  · show Function.update n.ret group _ g = Function.update s.packIndex group (pack : ℤ) g * groupsPerRank +
      Function.update s.rankInPack group (s.packItems pack : ℤ) g
    by_cases hgg : g = group
    · rw [hgg, Function.update_self, Function.update_self, Function.update_self, h.groups_eq]
      push_cast
      rfl
    · rw [Function.update_of_ne hgg, Function.update_of_ne hgg, Function.update_of_ne hgg]
      exact h.ret_eq g (Finset.mem_of_mem_insert_of_ne hg hgg)

theorem NodeState.Sim.run {l : List ℕ} {S : Finset ℕ} {n : NodeState K} {s s' : PackState K}
    (h : n.Sim groupsPerRank S s) (hrun : l.foldlM (packStep tokens numNodes groupsPerRank) s = .ok s') :
    ∃ n', l.foldlM (packGroupsStep tokens numNodes groupsPerRank) n = .ok n' ∧
      n'.Sim groupsPerRank (S ∪ l.toFinset) s' := by
  induction l generalizing S n s with
  | nil =>
    rw [← Except.ok.inj hrun, List.toFinset_nil, Finset.union_empty]
    exact ⟨n, rfl, h⟩
  | cons g l ih =>
    rw [List.foldlM_cons] at hrun
    obtain ⟨s₁, hstep, hrun⟩ := except_bind_eq_ok.mp hrun
    obtain ⟨n₁, hstep', h₁⟩ := h.step hstep
    obtain ⟨n', hrun', h'⟩ := ih h₁ hrun
    refine ⟨n', ?_, ?_⟩
    · rw [List.foldlM_cons, hstep']
      exact hrun'
    · rwa [List.toFinset_cons, Finset.union_insert, ← Finset.insert_union]

variable [Zero K] {T : Torch K} {weight : Mat K}

/-- The result of `pack_groups`, in terms of the loop of `balanced_packing`. -/
theorem exists_packGroups (hpos : 0 < numNodes) (hcols : weight.cols = numNodes * groupsPerRank) :
    ∃ ret, packGroups T weight numNodes = .ok ret ∧ ret.rows = weight.rows ∧ ret.cols = weight.cols ∧
      ∀ i < weight.rows, ∃ s : PackState K,
        (T.sortIndices weight i).foldlM (packStep (weight.cell i) numNodes groupsPerRank) .init = .ok s ∧
        s.Inv numNodes groupsPerRank (Finset.range weight.cols) ∧
        (∀ p < numNodes, s.packItems p = groupsPerRank) ∧
        ∀ g < weight.cols, ret.cell i g = s.packIndex g * groupsPerRank + s.rankInPack g := by
  have hmod : weight.cols % numNodes = 0 := by rw [hcols, Nat.mul_mod_right]
  have hdiv : weight.cols / numNodes = groupsPerRank := by rw [hcols, Nat.mul_div_cancel_left _ hpos]
  have hrow : ∀ i < weight.rows, ∃ n,
      (T.sortIndices weight i).foldlM (packGroupsStep (weight.cell i) numNodes groupsPerRank) .init =
          .ok n ∧
        ∃ s : PackState K,
          (T.sortIndices weight i).foldlM (packStep (weight.cell i) numNodes groupsPerRank) .init = .ok s ∧
          s.Inv numNodes groupsPerRank (Finset.range weight.cols) ∧
          (∀ p < numNodes, s.packItems p = groupsPerRank) ∧
          ∀ g < weight.cols, n.ret g = s.packIndex g * groupsPerRank + s.rankInPack g := by
    intro i hi
    have hperm := T.sortIndices_perm weight i hi
    have hset : ∅ ∪ (T.sortIndices weight i).toFinset = Finset.range weight.cols := by
      ext g
      simp [hperm.mem_iff]
    obtain ⟨s, hs, hinv, hfull⟩ : ∃ s : PackState K,
        (T.sortIndices weight i).foldlM (packStep (weight.cell i) numNodes groupsPerRank) .init = .ok s ∧
          s.Inv numNodes groupsPerRank (Finset.range (numNodes * groupsPerRank)) ∧
          ∀ p < numNodes, s.packItems p = groupsPerRank := exists_packRow (by rwa [← hcols])
    have hsim : (NodeState.init : NodeState K).Sim groupsPerRank ∅ PackState.init :=
      ⟨rfl, rfl, fun g hg => absurd hg (Finset.notMem_empty g)⟩
    obtain ⟨n, hn, hsim⟩ := hsim.run hs
    rw [hset] at hsim
    rw [← hcols] at hinv
    exact ⟨n, hn, s, hs, hinv, hfull, fun g hg => hsim.ret_eq g (Finset.mem_range.mpr hg)⟩
  obtain ⟨rows, hrows, hret⟩ := exists_rows .init hrow
  refine ⟨⟨weight.rows, weight.cols, fun i => (rows.getD i .init).ret⟩, ?_, rfl, rfl, hret⟩
  rw [packGroups, if_neg hpos.ne', hmod, hdiv]
  simp only [hrows]
  rfl

/-- `pack_groups` moves the groups to different positions, those of a node in a row. -/
theorem packGroups_bijOn (T : Torch K) (hpos : 0 < numNodes)
    (hcols : weight.cols = numNodes * groupsPerRank) :
    ∃ ret, packGroups T weight numNodes = .ok ret ∧
      ∃ pos : ℕ → ℕ → ℕ, ret.Is weight.rows weight.cols (fun r g => (pos r g : ℤ)) ∧
        ∀ r < weight.rows, Set.BijOn (pos r) (Set.Iio weight.cols) (Set.Iio weight.cols) := by
  obtain ⟨ret, hrun, hrows, hcols', hcell⟩ := exists_packGroups (T := T) hpos hcols
  refine ⟨ret, hrun, fun r g => (ret.cell r g).toNat, ⟨hrows, hcols', fun r hr g hg => ?_⟩, fun r hr => ?_⟩
  · obtain ⟨s, -, hinv, -, hret⟩ := hcell r hr
    have hindex := hinv.index_nonneg g (Finset.mem_range.mpr hg)
    have hrank := hinv.rank_nonneg g (Finset.mem_range.mpr hg)
    rw [Int.toNat_of_nonneg]
    rw [hret g hg]
    positivity
  · obtain ⟨s, -, hinv, hfull, hret⟩ := hcell r hr
    have hfills := hinv.fills
    rw [Finset.coe_range] at hfills
    have hbij := (bijOn_position numNodes groupsPerRank).comp (hfills.congr (fun g _ => rfl) hfull)
    rw [← hcols] at hbij
    refine hbij.congr fun g hg => ?_
    obtain ⟨p, hp⟩ := Int.eq_ofNat_of_zero_le (hinv.index_nonneg g (Finset.mem_range.mpr hg))
    obtain ⟨k, hk⟩ := Int.eq_ofNat_of_zero_le (hinv.rank_nonneg g (Finset.mem_range.mpr hg))
    show (s.packIndex g).toNat * groupsPerRank + (s.rankInPack g).toNat = (ret.cell r g).toNat
    rw [hret g hg, hp, hk, Int.toNat_natCast, Int.toNat_natCast, ← Int.natCast_mul, ← Int.natCast_add,
      Int.toNat_natCast]

/-- Where packs have more than one item, `pack_groups` puts the groups where `balanced_packing` does. -/
theorem packGroups_agrees (T : Torch K) (hpos : 0 < numNodes) (hdiv : weight.cols % numNodes = 0)
    (hone : weight.cols ≠ numNodes) :
    ∃ packIndex rankInPack ret, balancedPacking T weight numNodes = .ok (packIndex, rankInPack) ∧
      packGroups T weight numNodes = .ok ret ∧ ret.rows = weight.rows ∧ ret.cols = weight.cols ∧
      ∀ r < weight.rows, ∀ g < weight.cols,
        ret.cell r g = packIndex.cell r g * (weight.cols / numNodes : ℕ) + rankInPack.cell r g := by
  have hcols : weight.cols = numNodes * (weight.cols / numNodes) :=
    (Nat.mul_div_cancel' (Nat.dvd_of_mod_eq_zero hdiv)).symm
  have hone' : weight.cols / numNodes ≠ 1 := by
    intro heq
    rw [heq, Nat.mul_one] at hcols
    exact hone hcols
  obtain ⟨rows, hrun, hrows⟩ := exists_balancedPacking (T := T) hpos hcols hone'
  obtain ⟨ret, hret, hretRows, hretCols, hcell⟩ := exists_packGroups (T := T) hpos hcols
  refine ⟨_, _, ret, hrun, hret, hretRows, hretCols, fun r hr g hg => ?_⟩
  obtain ⟨s, hs, -, -, hret⟩ := hcell r hr
  rw [hret g hg, Except.ok.inj (hs.symm.trans (hrows r hr).1)]

theorem packGroups_agrees_sample : ∃ packIndex rankInPack ret,
    balancedPacking (Torch.exact ℚ) sampleWeight 2 = .ok (packIndex, rankInPack) ∧
      packGroups (Torch.exact ℚ) sampleWeight 2 = .ok ret ∧
      ∀ g < 4, ret.cell 0 g = packIndex.cell 0 g * 2 + rankInPack.cell 0 g := by
  have hne : sampleWeight.cols ≠ 2 := by decide
  obtain ⟨packIndex, rankInPack, ret, hpack, hgroups, -, -, hcell⟩ :=
    packGroups_agrees (Torch.exact ℚ) Nat.two_pos (Nat.mod_self 2) hne
  exact ⟨packIndex, rankInPack, ret, hpack, hgroups, hcell 0 (by decide)⟩

end Simulation

end PackGroups

end MoeSpecialization.Eplb
