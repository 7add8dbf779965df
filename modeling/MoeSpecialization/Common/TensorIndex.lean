import MoeSpecialization.Common.Filling
import MoeSpecialization.Common.PyM
import MoeSpecialization.Common.Tensor
import Mathlib.Data.Set.Function
import Mathlib.Tactic.Ring

/-!
# Gathering, scattering and reshaping

The index operations of tensors that the load balancer is written with. `Mat.Is` says what a matrix holds:
its shape, and its values inside of it. One lemma for each operation says what it makes of a matrix that
is known in that way, and that it does not raise there.
-/

namespace Py

open Filling

variable {α : Type}

theorem ok_bind {ε α β : Type} (a : α) (f : α → Except ε β) : ((Except.ok a : Except ε α) >>= f) = f a := rfl

/-- A loop over the rows whose body always returns. -/
theorem exists_rows {ε β : Type} {f : ℕ → Except ε β} {n : ℕ} (d : β) {P : ℕ → β → Prop}
    (h : ∀ i < n, ∃ y, f i = .ok y ∧ P i y) :
    ∃ ys, (List.range n).mapM f = .ok ys ∧ ∀ i < n, P i (ys.getD i d) := by
  obtain ⟨ys, hys⟩ := exists_mapM_eq_ok (List.range n) fun i hi =>
    (h i (List.mem_range.mp hi)).imp fun _ => And.left
  refine ⟨ys, hys, fun i hi => ?_⟩
  obtain ⟨y, hy, hP⟩ := h i hi
  have hi : (List.range n)[i]? = some i := List.getElem?_range hi
  obtain ⟨y', hy', hget⟩ := getElem?_of_mapM_eq_ok hys hi
  rw [List.getD_eq_getElem?_getD, hget, Option.getD_some]
  rwa [Except.ok.inj (hy'.symm.trans hy)]

namespace Mat

/-- The matrix of shape `(rows, cols)` that holds `f`. -/
structure Is (m : Mat α) (rows cols : ℕ) (f : ℕ → ℕ → α) : Prop where
  rows_eq : m.rows = rows
  cols_eq : m.cols = cols
  cell_eq : ∀ r < rows, ∀ c < cols, m.cell r c = f r c

/-- `torch.arange(n).expand(rows, n)`. -/
def arange (rows n : ℕ) : Mat ℤ := ⟨rows, n, fun _ c => c⟩

/-- `m.gather(-1, index)`. -/
def gather (m : Mat α) (index : Mat ℤ) : Except Error (Mat α) :=
  if m.rows < index.rows then .error (.runtimeError "size mismatch")
  else if (List.range index.rows).all fun r => (List.range index.cols).all fun c =>
      0 ≤ index.cell r c ∧ index.cell r c < m.cols then
    .ok ⟨index.rows, index.cols, fun r c => m.cell r (index.cell r c).toNat⟩
  else .error (.runtimeError "index out of bounds")

/-- One row of `scatter_`: the values of `src` are written one after the other. -/
def scatterRow (row : ℕ → α) (index : ℕ → ℤ) (src : ℕ → α) (n : ℕ) : ℕ → α :=
  (List.range n).foldl (fun row j => Function.update row (index j).toNat (src j)) row

/-- `m.scatter_(-1, index, src)`. -/
def scatter (m : Mat α) (index : Mat ℤ) (src : Mat α) : Except Error (Mat α) :=
  if m.rows < index.rows ∨ src.rows < index.rows ∨ src.cols < index.cols then
    .error (.runtimeError "size mismatch")
  else if (List.range index.rows).all fun r => (List.range index.cols).all fun c =>
      0 ≤ index.cell r c ∧ index.cell r c < m.cols then
    .ok { m with cell := fun r =>
      if r < index.rows then scatterRow (m.cell r) (index.cell r) (src.cell r) index.cols else m.cell r }
  else .error (.runtimeError "index out of bounds")

/-- `m.argsort(-1)` of integers; equal ones keep their order. -/
def argsort (m : Mat ℤ) : Mat ℤ :=
  ⟨m.rows, m.cols, fun r c =>
    (((List.range m.cols).insertionSort fun i j => m.cell r i ≤ m.cell r j).getD c 0 : ℕ)⟩

/-- The rows of `other` where the mask holds. -/
def mergeRows (m : Mat α) (mask : ℕ → Bool) (other : Mat α) : Mat α :=
  ⟨m.rows, m.cols, fun r => if mask r then other.cell r else m.cell r⟩

/-- `m[...] = torch.where(mask, other, m)`, for a mask of `n` rows. -/
def whereRows (m : Mat α) (n : ℕ) (mask : ℕ → Bool) (other : Mat α) : Except Error (Mat α) :=
  if m.rows = n ∧ other.rows = n ∧ other.cols = m.cols then .ok (m.mergeRows mask other)
  else .error (.runtimeError "size mismatch")

/-- The same values in another shape. -/
def reshape (m : Mat α) (rows cols : ℕ) : Mat α :=
  ⟨rows, cols, fun r c => m.cell (position cols (r, c) / m.cols) (position cols (r, c) % m.cols)⟩

/-- `m.view(-1, cols)`. -/
def viewCols (m : Mat α) (cols : ℕ) : Except Error (Mat α) :=
  if cols = 0 ∨ m.rows * m.cols % cols ≠ 0 then .error (.runtimeError "invalid shape")
  else .ok (m.reshape (m.rows * m.cols / cols) cols)

/-- `m.view(rows, -1)`. -/
def viewRows (m : Mat α) (rows : ℕ) : Except Error (Mat α) :=
  if rows = 0 ∨ m.rows * m.cols % rows ≠ 0 then .error (.runtimeError "invalid shape")
  else .ok (m.reshape rows (m.rows * m.cols / rows))

/-- `m.unflatten(-1, (dim1, dim2))`. -/
def unflatten (m : Mat α) (dim1 dim2 : ℕ) : Except Error (Tensor3 α) :=
  if dim1 * dim2 = m.cols then .ok ⟨m.rows, dim1, dim2, fun r i j => m.cell r (position dim2 (i, j))⟩
  else .error (.runtimeError "invalid shape")

/-- `m.view(dim0, dim1, -1)`. -/
def view3 (m : Mat α) (dim0 dim1 : ℕ) : Except Error (Tensor3 α) :=
  if dim0 * dim1 = 0 ∨ m.rows * m.cols % (dim0 * dim1) ≠ 0 then .error (.runtimeError "invalid shape")
  else
    let dim2 := m.rows * m.cols / (dim0 * dim1)
    .ok ⟨dim0, dim1, dim2, fun r i j => (m.reshape (dim0 * dim1) dim2).cell (position dim1 (r, i)) j⟩

end Mat

namespace Tensor3

/-- The tensor of shape `(dim0, dim1, dim2)` that holds `f`. -/
structure Is (t : Tensor3 α) (dim0 dim1 dim2 : ℕ) (f : ℕ → ℕ → ℕ → α) : Prop where
  dim0_eq : t.dim0 = dim0
  dim1_eq : t.dim1 = dim1
  dim2_eq : t.dim2 = dim2
  cell_eq : ∀ i < dim0, ∀ j < dim1, ∀ k < dim2, t.cell i j k = f i j k

/-- The layers of `other` where the mask holds. -/
def mergeFirst (t : Tensor3 α) (mask : ℕ → Bool) (other : Tensor3 α) : Tensor3 α :=
  ⟨t.dim0, t.dim1, t.dim2, fun i => if mask i then other.cell i else t.cell i⟩

/-- `t[...] = torch.where(mask, other, t)`, for a mask of `n` layers. -/
def whereFirst (t : Tensor3 α) (n : ℕ) (mask : ℕ → Bool) (other : Tensor3 α) : Except Error (Tensor3 α) :=
  if t.dim0 = n ∧ other.dim0 = n ∧ other.dim1 = t.dim1 ∧ other.dim2 = t.dim2 then .ok (t.mergeFirst mask other)
  else .error (.runtimeError "size mismatch")

/-- `t.flatten(-2)`. -/
def flatten2 (t : Tensor3 α) : Mat α :=
  ⟨t.dim0, t.dim1 * t.dim2, fun r c => t.cell r (c / t.dim2) (c % t.dim2)⟩

/-- `t.sum(0)`. -/
def sumFirst [Add α] [Zero α] (t : Tensor3 α) : Mat α :=
  ⟨t.dim1, t.dim2, fun i j => ((List.range t.dim0).map fun s => t.cell s i j).sum⟩

/-- `t.sum(-1)`. -/
def sumLast [Add α] [Zero α] (t : Tensor3 α) : Mat α :=
  ⟨t.dim0, t.dim1, fun r i => ((List.range t.dim2).map (t.cell r i)).sum⟩

end Tensor3

namespace Mat

theorem all_inRange {index : Mat ℤ} {rows n cols : ℕ} {g : ℕ → ℕ → ℕ}
    (h : index.Is rows n fun r c => g r c) (hlt : ∀ r < rows, ∀ c < n, g r c < cols) :
    (List.range index.rows).all fun r => (List.range index.cols).all fun c =>
      0 ≤ index.cell r c ∧ index.cell r c < cols := by
  rw [h.rows_eq, h.cols_eq, List.all_eq_true]
  intro r hr
  rw [List.all_eq_true]
  intro c hc
  have hr := List.mem_range.mp hr
  have hc := List.mem_range.mp hc
  rw [h.cell_eq r hr c hc, decide_eq_true_eq]
  exact ⟨Int.natCast_nonneg _, Int.ofNat_lt.mpr (hlt r hr c hc)⟩

/-- A merge of matrices of one shape. -/
theorem Is.whereRows {m other : Mat α} {rows cols : ℕ} {f g : ℕ → ℕ → α} (hm : m.Is rows cols f)
    (hother : other.Is rows cols g) (mask : ℕ → Bool) :
    m.whereRows rows mask other = .ok (m.mergeRows mask other) ∧
      (m.mergeRows mask other).Is rows cols fun r => if mask r then g r else f r := by
  refine ⟨if_pos ⟨hm.rows_eq, hother.rows_eq, hother.cols_eq.trans hm.cols_eq.symm⟩, hm.rows_eq, hm.cols_eq,
    fun r hr c hc => ?_⟩
  show (if mask r then other.cell r else m.cell r) c = (if mask r then g r else f r) c
  split
  · exact hother.cell_eq r hr c hc
  · exact hm.cell_eq r hr c hc

/-- Gathering at positions that exist. -/
theorem Is.gather {m : Mat α} {rows cols n : ℕ} {f : ℕ → ℕ → α} (hm : m.Is rows cols f)
    {index : Mat ℤ} {g : ℕ → ℕ → ℕ} (hindex : index.Is rows n fun r c => g r c)
    (hlt : ∀ r < rows, ∀ c < n, g r c < cols) :
    ∃ m', m.gather index = .ok m' ∧ m'.Is rows n fun r c => f r (g r c) := by
  have hall := all_inRange hindex hlt
  rw [← hm.cols_eq] at hall
  refine ⟨⟨index.rows, index.cols, fun r c => m.cell r (index.cell r c).toNat⟩, ?_, hindex.rows_eq,
    hindex.cols_eq, fun r hr c hc => ?_⟩
  · rw [Mat.gather, hm.rows_eq, hindex.rows_eq, if_neg (Nat.lt_irrefl rows), ← hindex.rows_eq, if_pos hall]
  · show m.cell r (index.cell r c).toNat = f r (g r c)
    rw [hindex.cell_eq r hr c hc, Int.toNat_natCast]
    exact hm.cell_eq r hr _ (hlt r hr c hc)

/-- What a row holds after writing to different positions. -/
theorem scatterRow_spec {row src : ℕ → α} {index : ℕ → ℤ} {g : ℕ → ℕ} {n : ℕ}
    (hindex : ∀ j < n, index j = g j) (hinj : Set.InjOn g (Set.Iio n)) :
    (∀ j < n, scatterRow row index src n (g j) = src j) ∧
      ∀ c, (∀ j < n, g j ≠ c) → scatterRow row index src n c = row c := by
  induction n with
  | zero => exact ⟨fun j hj => absurd hj (Nat.not_lt_zero j), fun c _ => rfl⟩
  | succ n ih =>
    have hsub : Set.Iio n ⊆ Set.Iio (n + 1) := fun j hj => Nat.lt_succ_of_lt hj
    obtain ⟨hwritten, hkept⟩ := ih (fun j hj => hindex j (Nat.lt_succ_of_lt hj)) (hinj.mono hsub)
    have hstep : scatterRow row index src (n + 1) =
        Function.update (scatterRow row index src n) (g n) (src n) := by
      rw [scatterRow, List.range_succ, List.foldl_append, List.foldl_cons, List.foldl_nil,
        hindex n (Nat.lt_succ_self n), Int.toNat_natCast]
      rfl
    constructor
    · intro j hj
      rw [hstep]
      rcases Nat.lt_succ_iff_lt_or_eq.mp hj with hlt | rfl
      · rw [Function.update_of_ne, hwritten j hlt]
        intro heq
        have := hinj (Nat.lt_succ_of_lt hlt) (Nat.lt_succ_self n) heq
        omega
      · rw [Function.update_self]
    · intro c hc
      rw [hstep, Function.update_of_ne (hc n (Nat.lt_succ_self n)).symm]
      exact hkept c fun j hj => hc j (Nat.lt_succ_of_lt hj)

/-- Scattering to different positions that exist. -/
theorem Is.scatter {m : Mat α} {rows cols n : ℕ} {f : ℕ → ℕ → α} (hm : m.Is rows cols f)
    {index : Mat ℤ} {g : ℕ → ℕ → ℕ} (hindex : index.Is rows n fun r c => g r c)
    (hlt : ∀ r < rows, ∀ c < n, g r c < cols) (hinj : ∀ r < rows, Set.InjOn (g r) (Set.Iio n))
    {src : Mat α} {v : ℕ → ℕ → α} (hsrc : src.Is rows n v) :
    ∃ m', m.scatter index src = .ok m' ∧ m'.rows = rows ∧ m'.cols = cols ∧
      (∀ r < rows, ∀ j < n, m'.cell r (g r j) = v r j) ∧
      ∀ r < rows, ∀ c < cols, (∀ j < n, g r j ≠ c) → m'.cell r c = f r c := by
  have hall := all_inRange hindex hlt
  rw [← hm.cols_eq] at hall
  have hrow (r : ℕ) (hr : r < rows) := @scatterRow_spec α (m.cell r) (src.cell r) (index.cell r) (g r) n
    (fun j hj => hindex.cell_eq r hr j hj) (hinj r hr)
  have hfits : ¬(m.rows < index.rows ∨ src.rows < index.rows ∨ src.cols < index.cols) := by
    rw [hm.rows_eq, hindex.rows_eq, hsrc.rows_eq, hsrc.cols_eq, hindex.cols_eq]
    omega
  refine ⟨_, (if_neg hfits).trans (if_pos hall), hm.rows_eq, hm.cols_eq, fun r hr j hj => ?_,
    fun r hr c hc hother => ?_⟩
  · show (if r < index.rows then _ else _ : ℕ → α) _ = _
    rw [if_pos (by rw [hindex.rows_eq]; exact hr), hindex.cols_eq, (hrow r hr).1 j hj]
    exact hsrc.cell_eq r hr j hj
  · show (if r < index.rows then _ else _ : ℕ → α) _ = _
    rw [if_pos (by rw [hindex.rows_eq]; exact hr), hindex.cols_eq, (hrow r hr).2 c hother]
    exact hm.cell_eq r hr c hc

theorem arange_is (rows n : ℕ) : (arange rows n).Is rows n fun _ c => ((c : ℕ) : ℤ) :=
  ⟨rfl, rfl, fun _ _ _ _ => rfl⟩

/-- Sorting the positions by the values of a permutation inverts it. -/
theorem Is.argsort {m : Mat ℤ} {rows n : ℕ} {ρ : ℕ → ℕ → ℕ} (hm : m.Is rows n fun r c => (ρ r c : ℤ))
    (hρ : ∀ r < rows, Set.BijOn (ρ r) (Set.Iio n) (Set.Iio n)) :
    ∃ τ : ℕ → ℕ → ℕ, m.argsort.Is rows n (fun r c => (τ r c : ℤ)) ∧
      ∀ r < rows, Set.BijOn (τ r) (Set.Iio n) (Set.Iio n) ∧ ∀ c < n, τ r (ρ r c) = c := by
  refine ⟨fun r c => ((List.range m.cols).insertionSort fun i j => m.cell r i ≤ m.cell r j).getD c 0,
    ⟨hm.rows_eq, hm.cols_eq, fun _ _ _ _ => rfl⟩, fun r hr => ?_⟩
  have hperm : ((List.range m.cols).insertionSort fun i j => m.cell r i ≤ m.cell r j).Perm (List.range n) := by
    rw [← hm.cols_eq]
    exact List.perm_insertionSort _ _
  have htotal : Std.Total fun i j => m.cell r i ≤ m.cell r j := ⟨fun i j => le_total _ _⟩
  have htrans : IsTrans ℕ fun i j => m.cell r i ≤ m.cell r j := ⟨fun i j k hij hjk => le_trans hij hjk⟩
  refine ⟨bijOn_getD hperm, getD_of_sorted hperm (hρ r hr) ?_⟩
  refine (List.pairwise_insertionSort (fun i j => m.cell r i ≤ m.cell r j) _).imp_of_mem fun {i j} hi hj hij => ?_
  rw [hm.cell_eq r hr i (List.mem_range.mp (hperm.mem_iff.mp hi)),
    hm.cell_eq r hr j (List.mem_range.mp (hperm.mem_iff.mp hj))] at hij
  exact Int.ofNat_le.mp hij

/-- Cutting every row into `nodes` rows. -/
theorem Is.viewCols {m : Mat α} {rows nodes cols : ℕ} {f : ℕ → ℕ → α} (hm : m.Is rows (nodes * cols) f)
    (hcols : 0 < cols) :
    ∃ m', m.viewCols cols = .ok m' ∧
      m'.Is (rows * nodes) cols fun r c => f (r / nodes) (position cols (r % nodes, c)) := by
  have hsize : rows * (nodes * cols) = rows * nodes * cols := by rw [Nat.mul_assoc]
  refine ⟨m.reshape (rows * nodes) cols, ?_, rfl, rfl, fun r hr c hc => ?_⟩
  · rw [Mat.viewCols, hm.rows_eq, hm.cols_eq, hsize, Nat.mul_mod_left, Nat.mul_div_cancel _ hcols,
      if_neg (by omega)]
  · have hflat : position cols (r, c) = position (nodes * cols) (r / nodes, position cols (r % nodes, c)) := by
      conv_lhs => rw [← position_div_mod nodes r]
      simp only [position]
      ring
    have hin : position cols (r % nodes, c) < nodes * cols := position_lt (mod_lt hr) hc
    show m.cell (position cols (r, c) / m.cols) (position cols (r, c) % m.cols) = _
    rw [hm.cols_eq, hflat, position_div hin, position_mod hin]
    exact hm.cell_eq _ (div_lt hr) _ hin

/-- Joining `nodes` rows at a time into one. -/
theorem Is.viewRows {m : Mat α} {rows nodes cols : ℕ} {f : ℕ → ℕ → α} (hm : m.Is (rows * nodes) cols f)
    (hrows : 0 < rows) :
    ∃ m', m.viewRows rows = .ok m' ∧
      m'.Is rows (nodes * cols) fun r c => f (position nodes (r, c / cols)) (c % cols) := by
  have hsize : rows * nodes * cols = nodes * cols * rows := by ring
  refine ⟨m.reshape rows (nodes * cols), ?_, rfl, rfl, fun r hr c hc => ?_⟩
  · rw [Mat.viewRows, hm.rows_eq, hm.cols_eq, hsize, Nat.mul_mod_left, Nat.mul_div_cancel _ hrows,
      if_neg (by omega)]
  · have hflat : position (nodes * cols) (r, c) = position cols (position nodes (r, c / cols), c % cols) := by
      conv_lhs => rw [← position_div_mod cols c]
      simp only [position]
      ring
    show m.cell (position (nodes * cols) (r, c) / m.cols) (position (nodes * cols) (r, c) % m.cols) = _
    rw [hm.cols_eq, hflat, position_div (mod_lt hc), position_mod (mod_lt hc)]
    exact hm.cell_eq _ (position_lt hr (div_lt hc)) _ (mod_lt hc)

/-- The rank-3 tensor of `nodes` rows at a time. -/
theorem Is.view3 {m : Mat α} {rows nodes cols : ℕ} {f : ℕ → ℕ → α} (hm : m.Is (rows * nodes) cols f)
    (hpos : 0 < rows * nodes) :
    ∃ t, m.view3 rows nodes = .ok t ∧ t.dim0 = rows ∧ t.dim1 = nodes ∧ t.dim2 = cols ∧
      ∀ r < rows, ∀ ν < nodes, ∀ c < cols, t.cell r ν c = f (position nodes (r, ν)) c := by
  have hsize : rows * nodes * cols = cols * (rows * nodes) := by ring
  have hdiv : m.rows * m.cols / (rows * nodes) = cols := by
    rw [hm.rows_eq, hm.cols_eq, hsize, Nat.mul_div_cancel _ hpos]
  have hshape : ¬(rows * nodes = 0 ∨ m.rows * m.cols % (rows * nodes) ≠ 0) := by
    rw [hm.rows_eq, hm.cols_eq, hsize, Nat.mul_mod_left]
    omega
  refine ⟨_, if_neg hshape, rfl, rfl, hdiv, fun r hr ν hν c hc => ?_⟩
  show m.cell (position _ (position nodes (r, ν), c) / m.cols)
    (position _ (position nodes (r, ν), c) % m.cols) = _
  rw [hdiv, hm.cols_eq, position_div hc, position_mod hc]
  exact hm.cell_eq _ (position_lt hr hν) _ hc

/-- The rank-3 tensor of the rows, each cut into `n` pieces. -/
theorem Is.view3_split {m : Mat α} {rows n k : ℕ} {f : ℕ → ℕ → α} (hm : m.Is rows (n * k) f)
    (hrows : 0 < rows) (hn : 0 < n) :
    ∃ t, m.view3 rows n = .ok t ∧ t.dim0 = rows ∧ t.dim1 = n ∧ t.dim2 = k ∧
      ∀ r < rows, ∀ j < n, ∀ c < k, t.cell r j c = f r (position k (j, c)) := by
  have hsize : rows * (n * k) = k * (rows * n) := by ring
  have hpos : 0 < rows * n := Nat.mul_pos hrows hn
  have hdiv : m.rows * m.cols / (rows * n) = k := by
    rw [hm.rows_eq, hm.cols_eq, hsize, Nat.mul_div_cancel _ hpos]
  have hshape : ¬(rows * n = 0 ∨ m.rows * m.cols % (rows * n) ≠ 0) := by
    rw [hm.rows_eq, hm.cols_eq, hsize, Nat.mul_mod_left]
    omega
  refine ⟨_, if_neg hshape, rfl, rfl, hdiv, fun r hr j hj c hc => ?_⟩
  have hflat : position k (position n (r, j), c) = position (n * k) (r, position k (j, c)) := by
    simp only [position]
    ring
  have hin : position k (j, c) < n * k := position_lt hj hc
  show m.cell (position _ (position n (r, j), c) / m.cols)
    (position _ (position n (r, j), c) % m.cols) = _
  rw [hdiv, hm.cols_eq, hflat, position_div hin, position_mod hin]
  exact hm.cell_eq r hr _ hin

end Mat

/-- A merge of tensors of one shape. -/
theorem Tensor3.Is.whereFirst {t other : Tensor3 α} {dim0 dim1 dim2 : ℕ} {f g : ℕ → ℕ → ℕ → α}
    (ht : t.Is dim0 dim1 dim2 f) (hother : other.Is dim0 dim1 dim2 g) (mask : ℕ → Bool) :
    t.whereFirst dim0 mask other = .ok (t.mergeFirst mask other) ∧
      (t.mergeFirst mask other).Is dim0 dim1 dim2 fun i => if mask i then g i else f i := by
  refine ⟨if_pos ⟨ht.dim0_eq, hother.dim0_eq, hother.dim1_eq.trans ht.dim1_eq.symm,
    hother.dim2_eq.trans ht.dim2_eq.symm⟩, ht.dim0_eq, ht.dim1_eq, ht.dim2_eq, fun i hi j hj k hk => ?_⟩
  show (if mask i then other.cell i else t.cell i) j k = (if mask i then g i else f i) j k
  split
  · exact hother.cell_eq i hi j hj k hk
  · exact ht.cell_eq i hi j hj k hk

end Py
