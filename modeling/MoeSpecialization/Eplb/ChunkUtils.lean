import MoeSpecialization.Common.PyM
import Mathlib.Data.List.Nodup
import Mathlib.Data.List.GetD
import Mathlib.Tactic.Linarith

/-!
# Sharing elements out to chunks

Reference: `_ChunkUtils` in `sglang/srt/eplb/expert_location_updater.py`.

The ranks that need an expert are shared out to the ranks that have it, in order and as evenly as possible:
the first `n % m` of `m` chunks have one element more than the others. A receiver computes its chunk from
its place among the elements and a sender computes its elements from its place among the chunks. The two
agree (`shares_agree`), so that a receiver waits for exactly the rank that sends to it.
-/

namespace MoeSpecialization.Eplb

open Py

/-- `_ChunkUtils`. -/
structure ChunkUtils (α : Type) where
  chunkValues : List α
  elementValues : List α

namespace ChunkUtils

/-- `_chunk_index_from_element_index`. -/
def chunkIndexFromElementIndex (numElements numChunks elementIndex : ℕ) : ℕ :=
  let shortChunkSize := numElements / numChunks
  let numLongChunks := numElements % numChunks
  let numElementsForLongChunks := numLongChunks * (shortChunkSize + 1)
  if elementIndex < numElementsForLongChunks then elementIndex / (shortChunkSize + 1)
  else numLongChunks + (elementIndex - numElementsForLongChunks) / shortChunkSize

/-- The start of `_element_slice_from_chunk_index`. -/
def sliceStart (numElements numChunks chunkIndex : ℕ) : ℕ :=
  chunkIndex * (numElements / numChunks) + min chunkIndex (numElements % numChunks)

/-- The end of `_element_slice_from_chunk_index`. -/
def sliceEnd (numElements numChunks chunkIndex : ℕ) : ℕ :=
  sliceStart numElements numChunks chunkIndex + numElements / numChunks +
    if chunkIndex < numElements % numChunks then 1 else 0

section

variable {α : Type} [DecidableEq α] (u : ChunkUtils α)

/-- `list.index`. -/
def index (xs : List α) (x : α) : Except Error ℕ :=
  if x ∈ xs then .ok (xs.idxOf x) else .error (.valueError "not in list")

/-- `chunk_value_from_element_value`. The index of the element is computed before the division. -/
def chunkValueFromElementValue (elementValue : α) : Except Error α := do
  let elementIndex ← index u.elementValues elementValue
  if u.chunkValues.length = 0 then throw .zeroDivisionError
  let chunkIndex :=
    chunkIndexFromElementIndex u.elementValues.length u.chunkValues.length elementIndex
  match u.chunkValues[chunkIndex]? with
  | some chunkValue => pure chunkValue
  | none => throw .indexError

/-- `element_values_from_chunk_value`. -/
def elementValuesFromChunkValue (chunkValue : α) : Except Error (List α) := do
  if u.elementValues.length = 0 then return []
  let chunkIndex ← index u.chunkValues chunkValue
  let start := sliceStart u.elementValues.length u.chunkValues.length chunkIndex
  let stop := sliceEnd u.elementValues.length u.chunkValues.length chunkIndex
  return (u.elementValues.drop start).take (stop - start)

end

/-! ## Indices -/

section Indices

variable {n m c i : ℕ}

theorem sliceEnd_eq_sliceStart_succ (n m c : ℕ) : sliceEnd n m c = sliceStart n m (c + 1) := by
  have hmul : (c + 1) * (n / m) = c * (n / m) + n / m := Nat.succ_mul c (n / m)
  rw [sliceEnd, sliceStart, sliceStart, hmul]
  split <;> omega

theorem sliceStart_mono {c' : ℕ} (h : c ≤ c') : sliceStart n m c ≤ sliceStart n m c' := by
  have hmul : c * (n / m) ≤ c' * (n / m) := Nat.mul_le_mul_right _ h
  rw [sliceStart, sliceStart]
  omega

/-- The slices end where the elements do. -/
theorem sliceStart_numChunks (hm : 0 < m) : sliceStart n m m = n := by
  have hlt := Nat.mod_lt n hm
  rw [sliceStart, min_eq_right hlt.le]
  exact Nat.div_add_mod n m

/-- The slice of the chunk of an element has the element. -/
theorem mem_slice_chunkIndex (hm : 0 < m) (hi : i < n) :
    sliceStart n m (chunkIndexFromElementIndex n m i) ≤ i ∧
      i < sliceStart n m (chunkIndexFromElementIndex n m i + 1) := by
  have hn : m * (n / m) + n % m = n := Nat.div_add_mod n m
  have hlt : n % m < m := Nat.mod_lt n hm
  unfold chunkIndexFromElementIndex sliceStart
  generalize n / m = q at hn ⊢
  generalize n % m = b at hn hlt ⊢
  dsimp only
  split
  · rename_i hlong
    -- a long chunk
    have hc : i / (q + 1) < b := Nat.div_lt_of_lt_mul (by rwa [Nat.mul_comm] at hlong)
    have hlow := Nat.div_mul_le_self i (q + 1)
    have hhigh := Nat.lt_div_mul_add (a := i) (b := q + 1) (Nat.succ_pos q)
    rw [min_eq_left hc.le, min_eq_left hc]
    constructor
    · linarith [Nat.mul_succ (i / (q + 1)) q]
    · linarith [Nat.mul_succ (i / (q + 1)) q, Nat.succ_mul (i / (q + 1)) q]
  · rename_i hshort
    -- a short chunk, which has at least one element
    have hq : 0 < q := by
      rcases Nat.eq_zero_or_pos q with rfl | hq
      · rw [Nat.mul_zero] at hn
        omega
      · exact hq
    have hlow := Nat.div_mul_le_self (i - b * (q + 1)) q
    have hhigh := Nat.lt_div_mul_add (a := i - b * (q + 1)) hq
    rw [Nat.mul_succ] at hshort hlow hhigh ⊢
    generalize (i - (b * q + b)) / q = a at hlow hhigh ⊢
    have hstart : (b + a) * q = b * q + a * q := Nat.add_mul b a q
    have hstop : (b + a + 1) * q = b * q + a * q + q := by rw [Nat.succ_mul, hstart]
    rw [min_eq_right (Nat.le_add_right b a), min_eq_right (by omega), hstart, hstop]
    omega

theorem chunkIndex_eq_iff (hm : 0 < m) (hi : i < n) :
    chunkIndexFromElementIndex n m i = c ↔ sliceStart n m c ≤ i ∧ i < sliceEnd n m c := by
  obtain ⟨hlow, hhigh⟩ := mem_slice_chunkIndex hm hi
  rw [sliceEnd_eq_sliceStart_succ]
  constructor
  · rintro rfl
    exact ⟨hlow, hhigh⟩
  · rintro ⟨hlow', hhigh'⟩
    by_contra hne
    -- different slices do not meet
    rcases Nat.lt_or_gt_of_ne hne with hlt | hgt
    · have := sliceStart_mono (n := n) (m := m) (Nat.succ_le_of_lt hlt)
      rw [Nat.succ_eq_add_one] at this
      omega
    · have := sliceStart_mono (n := n) (m := m) (Nat.succ_le_of_lt hgt)
      rw [Nat.succ_eq_add_one] at this
      omega

theorem chunkIndex_lt (hm : 0 < m) (hi : i < n) : chunkIndexFromElementIndex n m i < m := by
  by_contra hge
  have hmono := sliceStart_mono (n := n) (m := m) (not_lt.mp hge)
  have hlow := (mem_slice_chunkIndex hm hi).1
  rw [sliceStart_numChunks hm] at hmono
  omega

end Indices

/-! ## Values -/

section Values

variable {α : Type} [DecidableEq α] {u : ChunkUtils α}

/-- The elements of the chunk with an index. -/
def slice (u : ChunkUtils α) (c : ℕ) : List α :=
  (u.elementValues.drop (sliceStart u.elementValues.length u.chunkValues.length c)).take
    (sliceEnd u.elementValues.length u.chunkValues.length c -
      sliceStart u.elementValues.length u.chunkValues.length c)

theorem elementValuesFromChunkValue_eq_ok {v : α} (hv : v ∈ u.chunkValues) :
    u.elementValuesFromChunkValue v = .ok (u.slice (u.chunkValues.idxOf v)) := by
  rw [elementValuesFromChunkValue, index, if_pos hv]
  split
  · rename_i hempty
    rw [slice, List.length_eq_zero_iff.mp hempty, List.drop_nil, List.take_nil]
    rfl
  · rfl

/-- Every element has a chunk if there is one at all. -/
theorem run_chunkValueFromElementValue (hm : 0 < u.chunkValues.length) {e : α} (he : e ∈ u.elementValues) :
    u.chunkValueFromElementValue e =
      .ok (u.chunkValues.get ⟨_, chunkIndex_lt hm (List.idxOf_lt_length_of_mem he)⟩) := by
  rw [chunkValueFromElementValue, index, if_pos he]
  simp only [hm.ne', if_false, List.getElem?_eq_getElem (chunkIndex_lt hm (List.idxOf_lt_length_of_mem he)),
    bind, Except.bind, pure, Except.pure]
  rfl

theorem chunkValueFromElementValue_eq_ok {e v : α} (hchunks : u.chunkValues.Nodup)
    (he : e ∈ u.elementValues) (hv : v ∈ u.chunkValues) :
    u.chunkValueFromElementValue e = .ok v ↔
      chunkIndexFromElementIndex u.elementValues.length u.chunkValues.length (u.elementValues.idxOf e) =
        u.chunkValues.idxOf v := by
  have hm : 0 < u.chunkValues.length := List.length_pos_of_mem hv
  rw [run_chunkValueFromElementValue hm he, Except.ok.injEq]
  constructor
  · rintro rfl
    exact (hchunks.idxOf_getElem _ _).symm
  · intro h
    simp [h]

theorem mem_of_chunkValueFromElementValue {e v : α} (h : u.chunkValueFromElementValue e = .ok v) :
    v ∈ u.chunkValues := by
  rw [chunkValueFromElementValue] at h
  obtain ⟨i, -, h⟩ := except_bind_eq_ok.mp h
  split at h
  · cases h
  · dsimp only at h
    split at h
    · rename_i hget
      cases h
      exact List.mem_of_getElem? hget
    · cases h

/-- A slice has the elements whose index is in it. -/
theorem mem_take_drop_iff {xs : List α} (hxs : xs.Nodup) {start stop : ℕ} {x : α} :
    x ∈ (xs.drop start).take (stop - start) ↔ x ∈ xs ∧ start ≤ xs.idxOf x ∧ xs.idxOf x < stop := by
  constructor
  · intro hx
    obtain ⟨j, hj, rfl⟩ := List.mem_iff_getElem.mp hx
    have hbound := hj
    rw [List.length_take, List.length_drop] at hbound
    rw [List.getElem_take, List.getElem_drop, hxs.idxOf_getElem]
    exact ⟨List.getElem_mem _, by omega, by omega⟩
  · rintro ⟨hx, hstart, hstop⟩
    have hlt := List.idxOf_lt_length_of_mem hx
    refine List.mem_iff_getElem.mpr ⟨xs.idxOf x - start, ?_, ?_⟩
    · rw [List.length_take, List.length_drop]
      omega
    · simp only [List.getElem_take, List.getElem_drop, Nat.add_sub_cancel' hstart, List.getElem_idxOf]

/-- The elements of a chunk are those that have it as their chunk. -/
theorem mem_slice_iff (hchunks : u.chunkValues.Nodup) (helements : u.elementValues.Nodup) {e v : α}
    (hv : v ∈ u.chunkValues) :
    e ∈ u.slice (u.chunkValues.idxOf v) ↔ e ∈ u.elementValues ∧ u.chunkValueFromElementValue e = .ok v := by
  have hm : 0 < u.chunkValues.length := List.length_pos_of_mem hv
  rw [slice, mem_take_drop_iff helements]
  refine and_congr_right fun he => ?_
  rw [chunkValueFromElementValue_eq_ok hchunks he hv,
    chunkIndex_eq_iff hm (List.idxOf_lt_length_of_mem he)]

omit [DecidableEq α] in
/-- The slices of the first chunks, one after another. -/
theorem flatMap_slice (u : ChunkUtils α) (c : ℕ) :
    (List.range c).flatMap u.slice =
      u.elementValues.take (sliceStart u.elementValues.length u.chunkValues.length c) := by
  induction c with
  | zero => simp [sliceStart]
  | succ c ih =>
    have hle := @sliceStart_mono u.elementValues.length u.chunkValues.length c (c + 1) (Nat.le_succ c)
    rw [List.range_succ, List.flatMap_append, ih, List.flatMap_singleton, slice,
      sliceEnd_eq_sliceStart_succ, ← List.take_add, Nat.add_sub_cancel' hle]

omit [DecidableEq α] in
theorem length_slice {c : ℕ} (hc : c < u.chunkValues.length) :
    (u.slice c).length = u.elementValues.length / u.chunkValues.length +
      if c < u.elementValues.length % u.chunkValues.length then 1 else 0 := by
  have hmono := @sliceStart_mono u.elementValues.length u.chunkValues.length _ _ (Nat.succ_le_of_lt hc)
  rw [sliceStart_numChunks (Nat.zero_lt_of_lt hc), Nat.succ_eq_add_one,
    ← sliceEnd_eq_sliceStart_succ] at hmono
  rw [slice, List.length_take, List.length_drop]
  rw [sliceEnd] at hmono ⊢
  generalize u.elementValues.length / u.chunkValues.length = q at hmono ⊢
  omega

/-- **Receivers and senders agree.** For some chunks and elements without repetitions, every chunk has a
share of the elements. The shares are the elements in order and differ in size by one at most, and an element
computes the chunk that has it. -/
theorem shares_agree (u : ChunkUtils α) (hne : u.chunkValues ≠ []) (hchunks : u.chunkValues.Nodup)
    (helements : u.elementValues.Nodup) :
    ∃ share : α → List α, u.chunkValues.flatMap share = u.elementValues ∧
      ∀ v ∈ u.chunkValues, u.elementValuesFromChunkValue v = .ok (share v) ∧
        (∀ v' ∈ u.chunkValues, (share v).length ≤ (share v').length + 1) ∧
        ∀ e, e ∈ share v ↔ e ∈ u.elementValues ∧ u.chunkValueFromElementValue e = .ok v := by
  refine ⟨fun v => u.slice (u.chunkValues.idxOf v), ?_, fun v hv => ⟨?_, fun v' hv' => ?_, fun e => ?_⟩⟩
  · have hrange : u.chunkValues.map (u.chunkValues.idxOf ·) = List.range u.chunkValues.length := by
      refine List.ext_getElem (by simp) fun i hi _ => ?_
      rw [List.getElem_map, List.getElem_range, hchunks.idxOf_getElem]
    have hmap : u.chunkValues.flatMap (fun v => u.slice (u.chunkValues.idxOf v)) =
        (u.chunkValues.map (u.chunkValues.idxOf ·)).flatMap u.slice := by
      rw [List.flatMap_map]
    rw [hmap, hrange, flatMap_slice, sliceStart_numChunks (List.length_pos_iff.mpr hne), List.take_length]
  · exact elementValuesFromChunkValue_eq_ok hv
  · rw [length_slice (List.idxOf_lt_length_of_mem hv), length_slice (List.idxOf_lt_length_of_mem hv')]
    split <;> split <;> omega
  · exact mem_slice_iff hchunks helements hv

/-- Three ranks get an expert from two. -/
theorem shares_agree_three : ∃ share : ℕ → List ℕ, [0, 1].flatMap share = [2, 5, 7] ∧
    ∀ v ∈ [0, 1], (ChunkUtils.mk [0, 1] [2, 5, 7]).elementValuesFromChunkValue v = .ok (share v) := by
  obtain ⟨share, hall, hshare⟩ := shares_agree (ChunkUtils.mk [0, 1] [2, 5, 7]) (by decide) (by decide)
    (by decide)
  exact ⟨share, hall, fun v hv => (hshare v hv).1⟩

end Values

end ChunkUtils

end MoeSpecialization.Eplb
