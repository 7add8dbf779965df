import MoeSpecialization.Eplb.Packing

/-!
# Replicating experts

Reference: `replicate_experts` in `sglang/srt/eplb/eplb_algorithms/deepseek.py`.

The first physical experts are the logical ones, and each further one is a replica of the expert whose
replicas carry the largest load then. Counts and ranks number the replicas of every expert
(`replicateExperts_fills`), and the largest load of a replica is the smallest that this number of replicas
allows (`replicas_optimal`).
-/

namespace MoeSpecialization.Eplb

open Py Filling

section Definitions

variable {K : Type} [NatCast K] [Div K]

/-- The tensors that the loop of `replicate_experts` writes. -/
structure Replicas where
  phy2log : ℕ → ℕ → ℤ
  rank : ℕ → ℕ → ℤ
  logcnt : ℕ → ℕ → ℕ

def Replicas.init : Replicas := ⟨fun _ i => i, fun _ _ => 0, fun _ _ => 1⟩

/-- `weight / logcnt`. -/
def shares (weight : Mat K) (logcnt : ℕ → ℕ → ℕ) : Mat K :=
  ⟨weight.rows, weight.cols, fun r c => weight.cell r c / (logcnt r c : K)⟩

/-- The loop body of `replicate_experts`: in every row, one more replica of the expert `redundant r`. -/
def Replicas.put (s : Replicas) (redundant : ℕ → ℕ) (i : ℕ) : Replicas where
  phy2log r := Function.update (s.phy2log r) i (redundant r : ℤ)
  rank r := Function.update (s.rank r) i (s.logcnt r (redundant r) : ℤ)
  logcnt r := Function.update (s.logcnt r) (redundant r) (s.logcnt r (redundant r) + 1)

/-- One turn of the loop. The maximum over no columns raises. -/
def replicateStep (T : Torch K) (weight : Mat K) (s : Replicas) (i : ℕ) : Except Error Replicas :=
  if weight.cols = 0 then .error .indexError
  else .ok (s.put (T.maxIndices (shares weight s.logcnt)) i)

/-- `replicate_experts`. -/
def replicateExperts (T : Torch K) (weight : Mat K) (numPhy : ℕ) :
    Except Error (Mat ℤ × Mat ℤ × Mat ℕ) := do
  if numPhy < weight.cols then throw .assertionError
  let s ← (List.range' weight.cols (numPhy - weight.cols)).foldlM (replicateStep T weight) .init
  return (⟨weight.rows, numPhy, s.phy2log⟩, ⟨weight.rows, numPhy, s.rank⟩,
    ⟨weight.rows, weight.cols, s.logcnt⟩)

end Definitions

/-! ## The numbering of the replicas -/

section Fills

variable {K : Type} [NatCast K] [Div K] {T : Torch K} {weight : Mat K}

/-- The physical experts below `i` of a row are the replicas that `logcnt` counts. -/
structure Replicas.RowInv (numLog i : ℕ) (s : Replicas) (r : ℕ) : Prop where
  fills : ∃ f : ℕ → ℕ × ℕ, Fills (Set.Iio i) f numLog (s.logcnt r) ∧
    ∀ j < i, s.phy2log r j = (f j).1 ∧ s.rank r j = (f j).2
  logcnt_pos : ∀ c < numLog, 0 < s.logcnt r c
  sum_logcnt : ∑ c ∈ Finset.range numLog, s.logcnt r c = i

theorem Replicas.rowInv_init (numLog r : ℕ) : Replicas.init.RowInv numLog numLog r where
  fills := ⟨fun i => (i, 0), fills_ones numLog, fun _ _ => ⟨rfl, rfl⟩⟩
  logcnt_pos := fun _ _ => Nat.one_pos
  sum_logcnt := by simp [Replicas.init]

theorem Replicas.RowInv.put {numLog i r : ℕ} {s : Replicas} (h : s.RowInv numLog i r)
    {redundant : ℕ → ℕ} (hlt : redundant r < numLog) : (s.put redundant i).RowInv numLog (i + 1) r := by
  obtain ⟨f, hf, hcell⟩ := h.fills
  have hset : Set.Iio (i + 1) = insert i (Set.Iio i) := by
    ext j
    simp only [Set.mem_Iio, Set.mem_insert_iff]
    omega
  refine ⟨⟨Function.update f i (redundant r, s.logcnt r (redundant r)), ?_, fun j hj => ?_⟩,
    fun c hc => ?_, ?_⟩
  · rw [hset]
    exact hf.insert (fun hi => absurd hi (Nat.lt_irrefl i)) hlt
  · show Function.update (s.phy2log r) i (redundant r : ℤ) j = _ ∧
      Function.update (s.rank r) i (s.logcnt r (redundant r) : ℤ) j = _
    by_cases hji : j = i
    · rw [hji, Function.update_self, Function.update_self, Function.update_self]
      exact ⟨rfl, rfl⟩
    · rw [Function.update_of_ne hji, Function.update_of_ne hji, Function.update_of_ne hji]
      exact hcell j (by omega)
  · show 0 < Function.update (s.logcnt r) (redundant r) (s.logcnt r (redundant r) + 1) c
    by_cases hc' : c = redundant r
    · rw [hc', Function.update_self]
      exact Nat.succ_pos _
    · rw [Function.update_of_ne hc']
      exact h.logcnt_pos c hc
  · rw [← h.sum_logcnt]
    exact sum_update_succ (s.logcnt r) hlt

/-- A property of the rows that every turn keeps holds of them in the end. -/
theorem exists_replicas (hcols : 0 < weight.cols) {P : ℕ → Replicas → Prop} (hinit : P weight.cols .init)
    (hput : ∀ i s, P i s → P (i + 1) (s.put (T.maxIndices (shares weight s.logcnt)) i)) (k : ℕ) :
    ∃ s, (List.range' weight.cols k).foldlM (replicateStep T weight) .init = .ok s ∧
      P (weight.cols + k) s := by
  induction k with
  | zero => exact ⟨.init, rfl, hinit⟩
  | succ k ih =>
    obtain ⟨s, hrun, hs⟩ := ih
    refine ⟨_, ?_, hput _ s hs⟩
    rw [List.range'_1_concat, List.foldlM_append, hrun]
    show replicateStep T weight s (weight.cols + k) >>= pure = _
    rw [replicateStep, if_neg hcols.ne']
    rfl

theorem replicateExperts_eq {numPhy : ℕ} (hle : weight.cols ≤ numPhy) {s : Replicas}
    (hrun : (List.range' weight.cols (numPhy - weight.cols)).foldlM (replicateStep T weight) .init = .ok s) :
    replicateExperts T weight numPhy = .ok (⟨weight.rows, numPhy, s.phy2log⟩,
      ⟨weight.rows, numPhy, s.rank⟩, ⟨weight.rows, weight.cols, s.logcnt⟩) := by
  rw [replicateExperts, if_neg (not_lt.mpr hle), hrun]
  rfl

/-- The physical experts of a row are the replicas of the logical ones: those of expert `c` have the ranks
below `logcnt c`, and there is at least one. -/
theorem replicateExperts_fills (T : Torch K) {numPhy : ℕ} (hcols : 0 < weight.cols)
    (hle : weight.cols ≤ numPhy) :
    ∃ phy2log rank logcnt, replicateExperts T weight numPhy = .ok (phy2log, rank, logcnt) ∧
      ∃ log rk cnt : ℕ → ℕ → ℕ, phy2log.Is weight.rows numPhy (fun r i => (log r i : ℤ)) ∧
        rank.Is weight.rows numPhy (fun r i => (rk r i : ℤ)) ∧ logcnt.Is weight.rows weight.cols cnt ∧
        ∀ r < weight.rows, Fills (Set.Iio numPhy) (fun i => (log r i, rk r i)) weight.cols (cnt r) ∧
          ∀ c < weight.cols, 0 < cnt r c := by
  obtain ⟨s, hrun, hs⟩ := exists_replicas (T := T) hcols
    (P := fun i s => ∀ r < weight.rows, s.RowInv weight.cols i r)
    (fun r _ => Replicas.rowInv_init weight.cols r)
    (fun i s hs r hr => (hs r hr).put (T.maxIndices_lt _ r hr hcols)) (numPhy - weight.cols)
  rw [Nat.add_sub_cancel' hle] at hs
  refine ⟨_, _, _, replicateExperts_eq hle hrun, fun r i => (s.phy2log r i).toNat,
    fun r i => (s.rank r i).toNat, s.logcnt, ⟨rfl, rfl, fun r hr i hi => ?_⟩,
    ⟨rfl, rfl, fun r hr i hi => ?_⟩, ⟨rfl, rfl, fun _ _ _ _ => rfl⟩, fun r hr => ⟨?_, (hs r hr).logcnt_pos⟩⟩
  · obtain ⟨f, -, hcell⟩ := (hs r hr).fills
    show s.phy2log r i = ((s.phy2log r i).toNat : ℤ)
    rw [(hcell i hi).1, Int.toNat_natCast]
  · obtain ⟨f, -, hcell⟩ := (hs r hr).fills
    show s.rank r i = ((s.rank r i).toNat : ℤ)
    rw [(hcell i hi).2, Int.toNat_natCast]
  · obtain ⟨f, hf, hcell⟩ := (hs r hr).fills
    refine hf.congr (fun i hi => ?_) fun _ _ => rfl
    show f i = ((s.phy2log r i).toNat, (s.rank r i).toNat)
    rw [(hcell i hi).1, (hcell i hi).2, Int.toNat_natCast, Int.toNat_natCast]

end Fills

/-! ## The largest load -/

section Optimal

variable {K : Type} [Field K] [LinearOrder K] [IsStrictOrderedRing K]

/-- Of non-negative loads the largest share in the end is minimal: every distribution of as many replicas
that gives each expert one leaves some replica a share that is not smaller. -/
theorem replicas_optimal {T : Torch K} (hT : T.Ordered) {weight : Mat K} {numPhy : ℕ}
    (hcols : 0 < weight.cols) (hle : weight.cols ≤ numPhy)
    (hw : ∀ r < weight.rows, ∀ c < weight.cols, 0 ≤ weight.cell r c) :
    ∃ phy2log rank logcnt, replicateExperts T weight numPhy = .ok (phy2log, rank, logcnt) ∧
      ∀ r < weight.rows, (∀ c < weight.cols, 0 < logcnt.cell r c) ∧
        ∑ c ∈ Finset.range weight.cols, logcnt.cell r c = numPhy ∧
        ∀ d : ℕ → ℕ, (∀ c < weight.cols, 0 < d c) → ∑ c ∈ Finset.range weight.cols, d c ≤ numPhy →
          ∃ i < weight.cols, ∀ j < weight.cols,
            weight.cell r j / logcnt.cell r j ≤ weight.cell r i / d i := by
  have hput : ∀ (i : ℕ) (s : Replicas),
      (∀ r < weight.rows, s.RowInv weight.cols i r ∧
        Balance.Shared (weight.cell r) weight.cols (s.logcnt r)) →
      ∀ r < weight.rows, (s.put (T.maxIndices (shares weight s.logcnt)) i).RowInv weight.cols (i + 1) r ∧
        Balance.Shared (weight.cell r) weight.cols
          ((s.put (T.maxIndices (shares weight s.logcnt)) i).logcnt r) := by
    intro i s hs r hr
    have hlt := T.maxIndices_lt (shares weight s.logcnt) r hr hcols
    exact ⟨(hs r hr).1.put hlt, (hs r hr).2.add (hw r hr) hlt (hT.maximal (shares weight s.logcnt) r hr)⟩
  obtain ⟨s, hrun, hs⟩ := exists_replicas (T := T) hcols
    (P := fun i s => ∀ r < weight.rows, s.RowInv weight.cols i r ∧
      Balance.Shared (weight.cell r) weight.cols (s.logcnt r))
    (fun r _ => ⟨Replicas.rowInv_init weight.cols r, Balance.shared_ones _ _⟩) hput
    (numPhy - weight.cols)
  rw [Nat.add_sub_cancel' hle] at hs
  refine ⟨_, _, _, replicateExperts_eq hle hrun, fun r hr => ?_⟩
  obtain ⟨hrow, hshared⟩ := hs r hr
  refine ⟨hrow.logcnt_pos, hrow.sum_logcnt, fun d hd hsum => ?_⟩
  exact hshared.optimal (hw r hr) hcols hd (hsum.trans hrow.sum_logcnt.ge)

theorem replicas_optimal_sample : ∃ phy2log rank logcnt,
    replicateExperts (Torch.exact ℚ) sampleWeight 7 = .ok (phy2log, rank, logcnt) ∧
      ∀ d : ℕ → ℕ, (∀ c < 4, 0 < d c) → ∑ c ∈ Finset.range 4, d c ≤ 7 →
        ∃ i < 4, ∀ j < 4,
          sampleWeight.cell 0 j / logcnt.cell 0 j ≤ sampleWeight.cell 0 i / d i := by
  have hcols : 0 < sampleWeight.cols := by decide
  have hle : sampleWeight.cols ≤ 7 := by decide
  obtain ⟨phy2log, rank, logcnt, hrun, hopt⟩ :=
    replicas_optimal (Torch.exact_ordered ℚ) hcols hle fun r _ g _ => sampleWeight_nonneg r g
  exact ⟨phy2log, rank, logcnt, hrun, (hopt 0 (by decide)).2.2⟩

end Optimal

end MoeSpecialization.Eplb
