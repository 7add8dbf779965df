import MoeSpecialization.Common.PyDict
import MoeSpecialization.Common.PyM
import Mathlib.Algebra.BigOperators.Group.List.Basic
import Mathlib.Algebra.Order.Field.Rat

/-!
# The analyzers of count matrices

Reference: `MoEExpertAnalyzer._compute_domain_similarity` and
`MoELayerAnalyzer.analyze_layer_trajectories` in `metric/utils/process_count_matrix.py`.

Both take one count matrix (layers by experts) for every domain, normalize its rows, and compare the
domains by cosine similarity: the first one the whole matrices, the second one layer by layer. On
matrices of one shape with at least one layer and one expert they return.

What they call of numpy, pandas and scikit-learn is a parameter, and `Scientific.Lawful` says what they
rely on.
-/

namespace MoeSpecialization.Metrics

open Py

/-- A matrix as the list of its rows. -/
abbrev Rows (α : Type) := List (List α)

/-- The matrix has the given numbers of rows and columns. -/
def HasShape {α : Type} (rows cols : ℕ) (m : Rows α) : Prop :=
  m.length = rows ∧ ∀ row ∈ m, row.length = cols

/-- What the analyzers call of numpy, pandas and scikit-learn: `np.array` on a list of rows,
`cosine_similarity(X, Y)`, `np.log`, `pd.DataFrame` on a dictionary of columns, and `pd.DataFrame` on a
matrix with row and column labels. -/
structure Scientific (Frame : Type) where
  array : Rows ℚ → Except Error (Rows ℚ)
  cosineSimilarity : Rows ℚ → Rows ℚ → Except Error (Rows ℚ)
  log : ℚ → ℚ
  dataFrame : List (String × List ℚ) → Except Error Frame
  labelledFrame : Rows ℚ → List String → List String → Except Error Frame

/-- What they return on arguments of fitting shapes. -/
structure Scientific.Lawful {Frame : Type} (lib : Scientific Frame) : Prop where
  array_ok : ∀ rows cols m, HasShape rows cols m → lib.array m = .ok m
  cosineSimilarity_ok : ∀ n n' cols x y, 0 < n → 0 < n' → 0 < cols → HasShape n cols x →
    HasShape n' cols y → ∃ sim, lib.cosineSimilarity x y = .ok sim ∧ HasShape n n' sim
  dataFrame_ok : ∀ n columns, (∀ c ∈ columns, c.2.length = n) →
    ∃ frame, lib.dataFrame columns = .ok frame
  labelledFrame_ok : ∀ m index columns, HasShape index.length columns.length m →
    ∃ frame, lib.labelledFrame m index columns = .ok frame

/-- `_normalize_data` on one row: an empty row is divided by one. -/
def normalizeRow (row : List ℕ) : List ℚ :=
  let rowSum : ℚ := row.sum
  row.map fun (count : ℕ) => count / if rowSum = 0 then 1 else rowSum

/-- `_normalize_data`. -/
def normalizeData (rawData : PyDict String (Rows ℕ)) : List (String × Rows ℚ) :=
  rawData.entries.map fun d => (d.1, d.2.map normalizeRow)

section

variable {Frame : Type} (lib : Scientific Frame)

/-- `MoEExpertAnalyzer._compute_domain_similarity`. -/
def computeDomainSimilarity (normalizedData : List (String × Rows ℚ)) : Except Error Frame := do
  let domains := normalizedData.map Prod.fst
  let vectors ← lib.array (normalizedData.map fun d => d.2.flatten)
  let simMatrix ← lib.cosineSimilarity vectors vectors
  lib.labelledFrame simMatrix domains domains

/-- The divergence of one layer from the uniform distribution. -/
def layerKl (nExperts : ℕ) (row : List ℚ) : ℚ :=
  let pSafe := row.map (· + 1 / 10 ^ 10)
  let pSafe := pSafe.map (· / pSafe.sum)
  (pSafe.map fun p => p * lib.log (p / (1 / nExperts))).sum

/-- The specialization of the layers of a domain. -/
def layerKls (matrix : Rows ℚ) : Except Error (List ℚ) :=
  let nExperts := (matrix.headD []).length
  if nExperts = 0 then .error .zeroDivisionError else .ok (matrix.map (layerKl lib nExperts))

/-- `matrix[l]`. -/
def rowAt (matrix : Rows ℚ) (l : ℕ) : Except Error (List ℚ) :=
  match matrix[l]? with
  | some row => .ok row
  | none => .error .indexError

/-- `sim[0][0]`. -/
def firstEntry : Rows ℚ → Except Error ℚ
  | (x :: _) :: _ => .ok x
  | _ => .error .indexError

/-- The isolation of a domain on one layer. -/
def layerIso (normalizedData : List (String × Rows ℚ)) (target : String × Rows ℚ) (l : ℕ) :
    Except Error ℚ := do
  let targetVec ← rowAt target.2 l
  let otherSims ← (normalizedData.filter (·.1 ≠ target.1)).mapM fun other => do
    let otherVec ← rowAt other.2 l
    let sim ← lib.cosineSimilarity [targetVec] [otherVec]
    firstEntry sim
  let avgSim := if otherSims = [] then 1 else otherSims.sum / otherSims.length
  .ok (1 - avgSim)

/-- The number of layers, that of the first domain with one. -/
def nLayers (normalizedData : List (String × Rows ℚ)) : ℕ :=
  normalizedData.foldl (fun n d => if n = 0 then d.2.length else n) 0

/-- `MoELayerAnalyzer.analyze_layer_trajectories`. -/
def analyzeLayerTrajectories (normalizedData : List (String × Rows ℚ)) :
    Except Error (Frame × Frame) := do
  let specData ← normalizedData.mapM fun d => (layerKls lib d.2).map fun kls => (d.1, kls)
  let layerSpec ← lib.dataFrame specData
  let isoData ← normalizedData.mapM fun target =>
    ((List.range (nLayers normalizedData)).mapM (layerIso lib normalizedData target)).map
      fun isos => (target.1, isos)
  let layerIso ← lib.dataFrame isoData
  .ok (layerSpec, layerIso)

end

/-! ## On matrices of one shape -/

/-- A matrix with a row has one shape. -/
theorem HasShape.unique {α : Type} {rows cols rows' cols' : ℕ} {m : Rows α} (h : HasShape rows cols m)
    (h' : HasShape rows' cols' m) (hpos : 0 < rows) : rows = rows' ∧ cols = cols' := by
  refine ⟨h.1.symm.trans h'.1, ?_⟩
  obtain ⟨row, hrow⟩ := List.exists_mem_of_length_pos (h.1 ▸ hpos)
  exact (h.2 row hrow).symm.trans (h'.2 row hrow)

theorem HasShape.normalize {rows cols : ℕ} {m : Rows ℕ} (h : HasShape rows cols m) :
    HasShape rows cols (m.map normalizeRow) := by
  refine ⟨by rw [List.length_map, h.1], fun row hrow => ?_⟩
  obtain ⟨counts, hcounts, rfl⟩ := List.mem_map.mp hrow
  rw [normalizeRow, List.length_map]
  exact h.2 counts hcounts

theorem HasShape.length_flatten {α : Type} {rows cols : ℕ} {m : Rows α} (h : HasShape rows cols m) :
    m.flatten.length = rows * cols := by
  rw [List.length_flatten, List.map_congr_left h.2, List.map_const', List.sum_replicate, h.1]
  rfl

theorem hasShape_singleton {α : Type} (row : List α) : HasShape 1 row.length [row] :=
  ⟨rfl, fun _ h => by rw [List.mem_singleton.mp h]⟩

/-- Where all values agree, the first one that is not zero is that value. -/
theorem foldl_first_nonzero {α : Type} {f : α → ℕ} {l : List α} {n : ℕ} (hne : l ≠ [])
    (h : ∀ a ∈ l, f a = n) : l.foldl (fun m a => if m = 0 then f a else m) 0 = n := by
  have hstay : ∀ l : List α, (∀ a ∈ l, f a = n) →
      l.foldl (fun m a => if m = 0 then f a else m) n = n := by
    intro l h
    induction l with
    | nil => rfl
    | cons a l ih =>
      have hstep : (if n = 0 then f a else n) = n := by rw [h a (by simp), ite_self]
      rw [List.foldl_cons, hstep, ih fun b hb => h b (by simp [hb])]
  cases l with
  | nil => exact absurd rfl hne
  | cons a l =>
    rw [List.foldl_cons, if_pos rfl, h a (by simp)]
    exact hstay l fun b hb => h b (by simp [hb])

section OneShape

variable {Frame : Type} {lib : Scientific Frame} (hlib : lib.Lawful) {rows cols : ℕ} (hrows : 0 < rows)
  (hcols : 0 < cols) {data : List (String × Rows ℚ)} (hshape : ∀ d ∈ data, HasShape rows cols d.2)

include hlib hrows hcols hshape

theorem computeDomainSimilarity_ok (hne : data ≠ []) :
    ∃ frame, computeDomainSimilarity lib data = .ok frame := by
  have hvectors : HasShape data.length (rows * cols) (data.map fun d => d.2.flatten) := by
    refine ⟨List.length_map _, fun v hv => ?_⟩
    obtain ⟨d, hd, rfl⟩ := List.mem_map.mp hv
    exact (hshape d hd).length_flatten
  have hpos := List.length_pos_iff.mpr hne
  obtain ⟨sim, hsim, hsimshape⟩ := hlib.cosineSimilarity_ok _ _ _ _ _ hpos hpos
    (Nat.mul_pos hrows hcols) hvectors hvectors
  obtain ⟨frame, hframe⟩ := hlib.labelledFrame_ok sim (data.map Prod.fst) (data.map Prod.fst)
    (by rwa [List.length_map])
  refine ⟨frame, ?_⟩
  rw [computeDomainSimilarity, hlib.array_ok _ _ _ hvectors]
  simp only [bind, Except.bind, hsim, hframe]

omit hlib in
theorem layerKls_ok {d : String × Rows ℚ} (hd : d ∈ data) :
    ∃ kls, layerKls lib d.2 = .ok kls ∧ kls.length = rows := by
  obtain ⟨hlen, hrow⟩ := hshape d hd
  cases hm : d.2 with
  | nil =>
    rw [hm] at hlen
    exact absurd hlen.symm hrows.ne'
  | cons row m =>
    have hfirst := hrow row (by simp [hm])
    refine ⟨(row :: m).map (layerKl lib cols), ?_, by rw [List.length_map, ← hm, hlen]⟩
    rw [layerKls, List.headD_cons, hfirst, if_neg hcols.ne']

omit hlib hrows hcols in
theorem nLayers_eq (hne : data ≠ []) : nLayers data = rows :=
  foldl_first_nonzero (f := fun d : String × Rows ℚ => d.2.length) hne fun d hd => (hshape d hd).1

omit hlib hrows hcols in
theorem rowAt_ok {d : String × Rows ℚ} (hd : d ∈ data) {l : ℕ} (hl : l < rows) :
    ∃ row, rowAt d.2 l = .ok row ∧ row.length = cols := by
  obtain ⟨hlen, hrow⟩ := hshape d hd
  have hlt : l < d.2.length := by omega
  refine ⟨d.2[l], ?_, hrow _ (List.getElem_mem hlt)⟩
  rw [rowAt, List.getElem?_eq_getElem hlt]

omit hrows in
theorem layerIso_ok {target : String × Rows ℚ} (htarget : target ∈ data) {l : ℕ} (hl : l < rows) :
    ∃ iso, layerIso lib data target l = .ok iso := by
  obtain ⟨targetVec, htvec, htlen⟩ := rowAt_ok hshape htarget hl
  obtain ⟨sims, hsims⟩ := exists_mapM_eq_ok (f := fun other : String × Rows ℚ => do
      let otherVec ← rowAt other.2 l
      let sim ← lib.cosineSimilarity [targetVec] [otherVec]
      firstEntry sim) (data.filter (·.1 ≠ target.1)) fun other hother => by
    obtain ⟨otherVec, hovec, holen⟩ := rowAt_ok hshape (List.mem_filter.mp hother).1 hl
    obtain ⟨sim, hsim, hsimlen, hsimrow⟩ := hlib.cosineSimilarity_ok 1 1 cols [targetVec] [otherVec]
      one_pos one_pos hcols (htlen ▸ hasShape_singleton targetVec) (holen ▸ hasShape_singleton otherVec)
    obtain ⟨row, rfl⟩ := List.length_eq_one_iff.mp hsimlen
    obtain ⟨x, rfl⟩ := List.length_eq_one_iff.mp (hsimrow row (by simp))
    exact ⟨x, by simp only [hovec, bind, Except.bind, hsim, firstEntry]⟩
  simp only [layerIso, htvec, bind, Except.bind] at hsims ⊢
  rw [hsims]
  exact ⟨_, rfl⟩

theorem analyzeLayerTrajectories_ok (hne : data ≠ []) :
    ∃ frames, analyzeLayerTrajectories lib data = .ok frames := by
  obtain ⟨specData, hspec⟩ := exists_mapM_eq_ok (f := fun d : String × Rows ℚ =>
      (layerKls lib d.2).map fun kls => (d.1, kls)) data fun d hd => by
    obtain ⟨kls, hkls, -⟩ := layerKls_ok hrows hcols hshape hd
    exact ⟨(d.1, kls), by rw [hkls]; rfl⟩
  have hspeclen : ∀ c ∈ specData, c.2.length = rows := by
    intro c hc
    obtain ⟨d, hd, hcd⟩ := mem_of_mapM_eq_ok hspec c hc
    obtain ⟨kls, hkls, hlen⟩ := layerKls_ok hrows hcols hshape hd
    rw [hkls] at hcd
    cases hcd
    exact hlen
  obtain ⟨layerSpec, hlayerSpec⟩ := hlib.dataFrame_ok rows specData hspeclen
  have hisos : ∀ target ∈ data, ∃ isos,
      (List.range (nLayers data)).mapM (layerIso lib data target) = .ok isos := by
    intro target htarget
    refine exists_mapM_eq_ok _ fun l hl => ?_
    rw [nLayers_eq hshape hne] at hl
    exact layerIso_ok hlib hcols hshape htarget (List.mem_range.mp hl)
  obtain ⟨isoData, hiso⟩ := exists_mapM_eq_ok (f := fun target : String × Rows ℚ =>
      ((List.range (nLayers data)).mapM (layerIso lib data target)).map fun isos => (target.1, isos))
      data fun target htarget => by
    obtain ⟨isos, hisos⟩ := hisos target htarget
    exact ⟨(target.1, isos), by rw [hisos]; rfl⟩
  have hisolen : ∀ c ∈ isoData, c.2.length = rows := by
    intro c hc
    obtain ⟨target, htarget, hct⟩ := mem_of_mapM_eq_ok hiso c hc
    obtain ⟨isos, hisos, hct⟩ := except_map_eq_ok.mp hct
    rw [← hct]
    rw [nLayers_eq hshape hne] at hisos
    rw [length_of_mapM_eq_ok hisos, List.length_range]
  obtain ⟨layerIso, hlayerIso⟩ := hlib.dataFrame_ok rows isoData hisolen
  refine ⟨(layerSpec, layerIso), ?_⟩
  simp only [analyzeLayerTrajectories, hspec, bind, Except.bind, hlayerSpec, hiso, hlayerIso]

end OneShape

/-- The libraries on unit vectors and on the logarithm of `1`: there the cosine similarity is the inner
product. -/
def sampleLib : Scientific Unit where
  array m :=
    if ∀ u ∈ m, ∀ v ∈ m, u.length = v.length then .ok m else .error (.valueError "inhomogeneous shape")
  cosineSimilarity x y :=
    if x ≠ [] ∧ y ≠ [] ∧ ∀ u ∈ x ++ y, u ≠ [] ∧ ∀ v ∈ x ++ y, u.length = v.length then
      .ok (x.map fun u => y.map fun v => (List.zipWith (· * ·) u v).sum)
    else .error (.valueError "Incompatible dimension")
  log x := x - 1
  dataFrame columns :=
    if ∀ c ∈ columns, ∀ c' ∈ columns, c.2.length = c'.2.length then .ok ()
    else .error (.valueError "All arrays must be of the same length")
  labelledFrame m index columns :=
    if m.length = index.length ∧ ∀ row ∈ m, row.length = columns.length then .ok ()
    else .error (.valueError "Shape of passed values")

theorem lawful_sampleLib : sampleLib.Lawful where
  array_ok := by
    intro rows cols m h
    refine if_pos fun u hu v hv => ?_
    rw [h.2 u hu, h.2 v hv]
  cosineSimilarity_ok := by
    intro n n' cols x y hn hn' hcols hx hy
    have hlen : ∀ u ∈ x ++ y, u.length = cols := fun u hu =>
      (List.mem_append.mp hu).elim (hx.2 u) (hy.2 u)
    have hfit : x ≠ [] ∧ y ≠ [] ∧ ∀ u ∈ x ++ y, u ≠ [] ∧ ∀ v ∈ x ++ y, u.length = v.length := by
      refine ⟨?_, ?_, fun u hu => ⟨?_, fun v hv => ?_⟩⟩
      · exact List.ne_nil_of_length_pos (hx.1 ▸ hn)
      · exact List.ne_nil_of_length_pos (hy.1 ▸ hn')
      · exact List.ne_nil_of_length_pos (hlen u hu ▸ hcols)
      · rw [hlen u hu, hlen v hv]
    refine ⟨_, if_pos hfit, ?_, fun row hrow => ?_⟩
    · rw [List.length_map, hx.1]
    · obtain ⟨u, -, rfl⟩ := List.mem_map.mp hrow
      rw [List.length_map, hy.1]
  dataFrame_ok := by
    intro n columns h
    refine ⟨(), if_pos fun c hc c' hc' => ?_⟩
    rw [h c hc, h c' hc']
  labelledFrame_ok := fun m index columns h => ⟨(), if_pos h⟩

end MoeSpecialization.Metrics
