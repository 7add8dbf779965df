import MoeSpecialization.Common.Json
import Mathlib.Data.List.Basic

/-!
# Tensors with a shape

A matrix or a rank-3 tensor is its shape together with a value for every index; values outside the
shape are never read. `Tensor3.setBlock` is the slice assignment `t[i, :rows, :cols] = m`, which raises
when the layer is out of range or the block does not fit, and `Tensor3.widen` is the reallocation with a
wider last axis. Both keep the other axes.
-/

namespace Py

/-- A matrix. -/
structure Mat (α : Type) where
  rows : ℕ
  cols : ℕ
  cell : ℕ → ℕ → α

/-- A tensor of rank 3. -/
structure Tensor3 (α : Type) where
  dim0 : ℕ
  dim1 : ℕ
  dim2 : ℕ
  cell : ℕ → ℕ → ℕ → α

namespace Tensor3

variable {α : Type}

/-- A constant tensor, as `torch.zeros` and `torch.full` make it. -/
def full (dim0 dim1 dim2 : ℕ) (v : α) : Tensor3 α := ⟨dim0, dim1, dim2, fun _ _ _ => v⟩

/-- `t[...] = v`. -/
def fill (t : Tensor3 α) (v : α) : Tensor3 α := full t.dim0 t.dim1 t.dim2 v

/-- A new tensor of width `dim2` whose first columns are those of `t` and whose others hold `pad`. -/
def widen (t : Tensor3 α) (dim2 : ℕ) (pad : α) : Tensor3 α :=
  ⟨t.dim0, t.dim1, dim2, fun i j k => if k < t.dim2 then t.cell i j k else pad⟩

/-- `t[i, :m.rows, :m.cols] = m`. -/
def setBlock (t : Tensor3 α) (i : ℕ) (m : Mat α) : Except Error (Tensor3 α) :=
  if t.dim0 ≤ i then .error .indexError
  else if t.dim1 < m.rows ∨ t.dim2 < m.cols then .error (.runtimeError "shape mismatch")
  else .ok { t with cell := fun i' j k =>
    if i' = i ∧ j < m.rows ∧ k < m.cols then m.cell j k else t.cell i' j k }

/-- The layer `i` of `t[:, :n, :]` as nested lists. -/
def layerRows (t : Tensor3 α) (n i : ℕ) : List (List α) :=
  (List.range (min n t.dim1)).map fun j => (List.range t.dim2).map fun k => t.cell i j k

/-- `t[:, :n, :].tolist()`. -/
def takeRows (t : Tensor3 α) (n : ℕ) : List (List (List α)) :=
  (List.range t.dim0).map (t.layerRows n)

theorem length_takeRows (t : Tensor3 α) (n : ℕ) : (t.takeRows n).length = t.dim0 := by
  rw [takeRows, List.length_map, List.length_range]

theorem length_layerRows (t : Tensor3 α) (n i : ℕ) : (t.layerRows n i).length = min n t.dim1 := by
  rw [layerRows, List.length_map, List.length_range]

/-- Every layer of a cut has the rows that exist, at most `n` of them. -/
theorem length_of_mem_takeRows {t : Tensor3 α} {n : ℕ} {rows : List (List α)}
    (h : rows ∈ t.takeRows n) : rows.length = min n t.dim1 := by
  obtain ⟨i, -, rfl⟩ := List.mem_map.mp h
  exact t.length_layerRows n i

/-- Slice assignment keeps the shape. -/
theorem setBlock_shape {t t' : Tensor3 α} {i : ℕ} {m : Mat α} (h : t.setBlock i m = .ok t') :
    t'.dim0 = t.dim0 ∧ t'.dim1 = t.dim1 ∧ t'.dim2 = t.dim2 := by
  unfold setBlock at h
  split at h
  · cases h
  · split at h
    · cases h
    · cases h
      exact ⟨rfl, rfl, rfl⟩

/-- The tensor after a slice assignment that fits. -/
def withBlock (t : Tensor3 α) (i : ℕ) (m : Mat α) : Tensor3 α :=
  { t with cell := fun i' j k => if i' = i ∧ j < m.rows ∧ k < m.cols then m.cell j k else t.cell i' j k }

theorem setBlock_eq_ok {t t' : Tensor3 α} {i : ℕ} {m : Mat α} :
    t.setBlock i m = .ok t' ↔
      (i < t.dim0 ∧ m.rows ≤ t.dim1 ∧ m.cols ≤ t.dim2) ∧ t.withBlock i m = t' := by
  unfold setBlock
  split
  · rename_i hi
    simp [not_lt.mpr hi]
  · rename_i hi
    split
    · rename_i hbig
      simp only [reduceCtorEq, false_iff]
      rintro ⟨⟨-, hrows, hcols⟩, -⟩
      omega
    · rename_i hfit
      have hfits : i < t.dim0 ∧ m.rows ≤ t.dim1 ∧ m.cols ≤ t.dim2 := by omega
      simp only [hfits, and_self, true_and, Except.ok.injEq]
      rfl

/-- What a slice assignment writes to a cell, if there is one. -/
def blockAt (i : ℕ) (m : Option (Mat α)) (i' j k : ℕ) : Option α :=
  m.bind fun m => if i' = i ∧ j < m.rows ∧ k < m.cols then some (m.cell j k) else none

theorem cell_withBlock (t : Tensor3 α) (i : ℕ) (m : Mat α) (i' j k : ℕ) :
    (t.withBlock i m).cell i' j k = (blockAt i (some m) i' j k).getD (t.cell i' j k) := by
  simp only [withBlock, blockAt, Option.bind_some]
  split <;> rfl

/-- Cutting rows gives the nested list of the cells. -/
theorem takeRows_eq_map_iff {t : Tensor3 α} {n cols : ℕ} {f : ℕ → ℕ → ℕ → α} (hcols : t.dim2 = cols) :
    t.takeRows n = (List.range t.dim0).map (fun i => (List.range n).map fun j =>
        (List.range cols).map fun k => f i j k) ↔
      t.dim0 = 0 ∨ n ≤ t.dim1 ∧ ∀ i < t.dim0, ∀ j < n, ∀ k < cols, t.cell i j k = f i j k := by
  subst hcols
  rw [takeRows, List.map_inj_left]
  constructor
  · intro h
    refine or_iff_not_imp_left.mpr fun hdim => ?_
    have hrows : n ≤ t.dim1 := by
      have hlen := congrArg List.length (h 0 (List.mem_range.mpr (by omega)))
      rw [layerRows, List.length_map, List.length_map, List.length_range, List.length_range] at hlen
      omega
    refine ⟨hrows, fun i hi j hj k hk => ?_⟩
    have hlayer := h i (List.mem_range.mpr hi)
    rw [layerRows, Nat.min_eq_left hrows, List.map_inj_left] at hlayer
    have hrow := hlayer j (List.mem_range.mpr hj)
    rw [List.map_inj_left] at hrow
    exact hrow k (List.mem_range.mpr hk)
  · rintro (hdim | ⟨hrows, hcells⟩) i hi
    · rw [List.mem_range] at hi
      omega
    · rw [layerRows, Nat.min_eq_left hrows]
      refine List.map_congr_left fun j hj => List.map_congr_left fun k hk => ?_
      exact hcells i (List.mem_range.mp hi) j (List.mem_range.mp hj) k (List.mem_range.mp hk)

end Tensor3

namespace Mat

/-- `m.flatten()`. -/
def flatten {α : Type} (m : Mat α) : List α :=
  (List.range m.rows).flatMap fun j => (List.range m.cols).map fun k => m.cell j k

/-- `m.tolist()`. -/
def toLists {α : Type} (m : Mat α) : List (List α) :=
  (List.range m.rows).map fun j => (List.range m.cols).map fun k => m.cell j k

/-- `m[row, :].scatter_add_(dim=0, index, src)`, with the pairs of `index` and `src`. An index outside of
the row raises. -/
def scatterAdd (m : Mat ℕ) (row : ℕ) (updates : List (ℤ × ℕ)) : Except Error (Mat ℕ) :=
  if m.rows ≤ row then .error .indexError
  else if updates.all fun u => 0 ≤ u.1 ∧ u.1 < m.cols then
    .ok { m with cell := fun (j k : ℕ) =>
      if j = row then
        updates.foldl (fun acc u => if u.1 = (k : ℤ) then acc + u.2 else acc) (m.cell j k)
      else m.cell j k }
  else .error (.runtimeError "index out of bounds")

/-- Rows and columns that hold other values do not count. -/
theorem count_pad {α : Type} [DecidableEq α] {m : Mat α} {n w : ℕ} {pad e : α} (hn : m.rows ≤ n)
    (hw : m.cols ≤ w) (hpad : pad ≠ e) :
    ((List.range n).flatMap fun j => (List.range w).map fun k =>
        if j < m.rows ∧ k < m.cols then m.cell j k else pad).count e = m.flatten.count e := by
  obtain ⟨dn, rfl⟩ := Nat.exists_eq_add_of_le hn
  obtain ⟨dw, rfl⟩ := Nat.exists_eq_add_of_le hw
  rw [flatten, @List.range_add m.rows dn, List.flatMap_append, List.count_append]
  have hbelow : ((List.map (m.rows + ·) (List.range dn)).flatMap fun j =>
      (List.range (m.cols + dw)).map fun k =>
        if j < m.rows ∧ k < m.cols then m.cell j k else pad).count e = 0 := by
    refine List.count_eq_zero.mpr fun he => ?_
    obtain ⟨j, hj, he⟩ := List.mem_flatMap.mp he
    obtain ⟨i, -, rfl⟩ := List.mem_map.mp hj
    obtain ⟨k, -, he⟩ := List.mem_map.mp he
    rw [if_neg (by omega)] at he
    exact hpad he
  rw [hbelow, Nat.add_zero, List.count_flatMap, List.count_flatMap]
  refine congrArg List.sum (List.map_congr_left fun j hj => ?_)
  have hj := List.mem_range.mp hj
  simp only [Function.comp_apply]
  rw [List.range_add, List.map_append, List.count_append]
  have hright : ((List.map (m.cols + ·) (List.range dw)).map fun k =>
      if j < m.rows ∧ k < m.cols then m.cell j k else pad).count e = 0 := by
    refine List.count_eq_zero.mpr fun he => ?_
    obtain ⟨k, hk, he⟩ := List.mem_map.mp he
    obtain ⟨i, -, rfl⟩ := List.mem_map.mp hk
    rw [if_neg (by omega)] at he
    exact hpad he
  rw [hright, Nat.add_zero]
  refine congrArg (List.count e) (List.map_congr_left fun k hk => ?_)
  rw [if_pos ⟨hj, List.mem_range.mp hk⟩]

end Mat

/-- `ans.scatter_add_(0, index, ones)`: one more at every listed index. -/
def scatterAddOnes (ans : List ℕ) (index : List ℕ) : List ℕ :=
  index.foldl (fun a i => a.modify i (· + 1)) ans

/-- Counting into zeros. -/
theorem scatterAddOnes_replicate (n : ℕ) (index : List ℕ) :
    scatterAddOnes (List.replicate n 0) index = (List.range n).map fun k => index.count k := by
  suffices key : ∀ ans : List ℕ, scatterAddOnes ans index =
      (List.range ans.length).map fun k => ans.getD k 0 + index.count k by
    rw [key, List.length_replicate]
    refine List.map_congr_left fun k hk => ?_
    simp [List.getD_eq_getElem?_getD, List.mem_range.mp hk]
  induction index with
  | nil =>
    intro ans
    refine List.ext_getElem (by simp [scatterAddOnes]) fun i hi _ => ?_
    simp only [scatterAddOnes, List.foldl_nil] at hi ⊢
    simp [List.getD_eq_getElem?_getD, hi]
  | cons i index ih =>
    intro ans
    have hstep : scatterAddOnes ans (i :: index) = scatterAddOnes (ans.modify i (· + 1)) index := rfl
    rw [hstep, ih, List.length_modify]
    refine List.map_congr_left fun k hk => ?_
    have hk := List.mem_range.mp hk
    rw [List.getD_eq_getElem?_getD, List.getD_eq_getElem?_getD, List.getElem?_modify,
      List.getElem?_eq_getElem hk, List.count_cons]
    by_cases hik : i = k
    · simp [hik]
      omega
    · simp [hik]

end Py
