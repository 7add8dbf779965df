import MoeSpecialization.Common.Cosine
import MoeSpecialization.Metrics.CountMatrix
import Mathlib.Data.List.GetD
import Mathlib.Analysis.SpecialFunctions.Log.Basic

/-!
# Layer-wise isolation over the reals

Reference: `MoELayerAnalyzer` in `metric/utils/process_count_matrix.py`.

The arithmetic of the analyzer over any ordered field, with the square root of the norms and the
logarithm of the divergences as parameters. A layer that routes no tokens keeps its zero row, and a
zero row has similarity zero with every row, its own kind included: the isolation of such a layer is
one, not zero, for every domain.
-/

namespace MoeSpecialization.Metrics.Analyzer

open Py Cosine

/-- `pd.DataFrame` of one domain: a row for every layer, a column for every expert. -/
structure DomainMatrix (K : Type) where
  nExperts : ℕ
  layers : List (List K)
  rectangular : ∀ row ∈ layers, row.length = nExperts

section Model

variable {K : Type} [Field K] [LinearOrder K]

/-- `_normalize_data` on one row: the sum of an empty row is replaced by one. -/
def normalizeRow (row : List K) : List K :=
  let rowSum := row.sum
  row.map (· / if rowSum = 0 then 1 else rowSum)

theorem length_normalizeRow (row : List K) : (normalizeRow row).length = row.length := List.length_map _

/-- `_normalize_data` on one matrix. -/
def DomainMatrix.normalize (m : DomainMatrix K) : DomainMatrix K where
  nExperts := m.nExperts
  layers := m.layers.map normalizeRow
  rectangular := by
    intro row hrow
    obtain ⟨counts, hcounts, rfl⟩ := List.mem_map.mp hrow
    rw [length_normalizeRow, m.rectangular counts hcounts]

/-- `_normalize_data`. -/
def normalizeData (rawData : PyDict String (DomainMatrix K)) : List (String × DomainMatrix K) :=
  rawData.entries.map fun d => (d.1, d.2.normalize)

/-- `self.n_layers`: that of the first domain with a layer. -/
def nLayers (normalizedData : List (String × DomainMatrix K)) : ℕ :=
  normalizedData.foldl (fun n d => if n = 0 then d.2.layers.length else n) 0

/-- `1e-10`. -/
def epsilon : K := 1 / 10 ^ 10

/-- The divergence of one layer from the uniform distribution. -/
def layerKl (log : K → K) (nExperts : ℕ) (row : List K) : K :=
  let pSafe := row.map (· + epsilon)
  let pSafe := pSafe.map (· / pSafe.sum)
  (pSafe.map fun p => p * log (p / (1 / nExperts))).sum

/-- The divergences of the layers of a domain; `1.0 / n_experts` raises without experts. -/
def layerKls (log : K → K) (m : DomainMatrix K) : Except Error (List K) :=
  if m.nExperts = 0 then .error .zeroDivisionError
  else .ok (m.layers.map (layerKl log m.nExperts))

/-- `matrix[l]`. -/
def rowAt (m : DomainMatrix K) (l : ℕ) : Except Error (List K) :=
  match m.layers[l]? with
  | some row => .ok row
  | none => .error .indexError

/-- `cosine_similarity(u, v)[0][0]` of two vectors as matrices of one row. -/
def cosineSimilarity (sqrt : K → K) (u v : List K) : Except Error K :=
  if u ≠ [] ∧ u.length = v.length then .ok (similarity sqrt u v)
  else .error (.valueError "Incompatible dimension for X and Y matrices")

/-- The similarity with another domain on one layer. -/
def otherSim (sqrt : K → K) (targetVec : List K) (l : ℕ) (other : String × DomainMatrix K) :
    Except Error K := do
  let otherVec ← rowAt other.2 l
  cosineSimilarity sqrt targetVec otherVec

/-- The isolation of a domain on one layer. -/
def layerIso (sqrt : K → K) (normalizedData : List (String × DomainMatrix K))
    (target : String × DomainMatrix K) (l : ℕ) : Except Error K := do
  let targetVec ← rowAt target.2 l
  let otherSims ← (normalizedData.filter (·.1 ≠ target.1)).mapM (otherSim sqrt targetVec l)
  let avgSim := if otherSims = [] then 1 else average otherSims
  .ok (1 - avgSim)

/-- `pd.DataFrame` on a dictionary of columns. -/
def dataFrame (columns : List (String × List K)) : Except Error (List (String × List K)) :=
  if ∀ c ∈ columns, ∀ c' ∈ columns, c.2.length = c'.2.length then .ok columns
  else .error (.valueError "All arrays must be of the same length")

/-- The entry of `spec_data` of a domain. -/
def specColumn (log : K → K) (d : String × DomainMatrix K) : Except Error (String × List K) := do
  let layerKls ← layerKls log d.2
  .ok (d.1, layerKls)

/-- The entry of `iso_data` of a domain. -/
def isoColumn (sqrt : K → K) (normalizedData : List (String × DomainMatrix K)) (nLayers : ℕ)
    (target : String × DomainMatrix K) : Except Error (String × List K) := do
  let layerIsos ← (List.range nLayers).mapM (layerIso sqrt normalizedData target)
  .ok (target.1, layerIsos)

/-- What `analyze_layer_trajectories` leaves in the analyzer: the columns of its two tables. -/
structure Trajectories (K : Type) where
  layerSpecDf : List (String × List K)
  layerIsoDf : List (String × List K)

/-- `MoELayerAnalyzer(model_name, domain_matrices).analyze_layer_trajectories()`. -/
def analyzeLayerTrajectories (sqrt log : K → K) (domainMatrices : PyDict String (DomainMatrix K)) :
    Except Error (Trajectories K) := do
  let normalizedData := normalizeData domainMatrices
  let specData ← normalizedData.mapM (specColumn log)
  let layerSpecDf ← dataFrame specData
  let isoData ← normalizedData.mapM (isoColumn sqrt normalizedData (nLayers normalizedData))
  let layerIsoDf ← dataFrame isoData
  .ok ⟨layerSpecDf, layerIsoDf⟩

/-! ## The tables of matrices of one shape -/

/-- All matrices have the given numbers of layers and experts. -/
def OneShape (rows cols : ℕ) (data : List (String × DomainMatrix K)) : Prop :=
  ∀ d ∈ data, d.2.layers.length = rows ∧ d.2.nExperts = cols

/-- Row `l` of a matrix. -/
def DomainMatrix.row (m : DomainMatrix K) (l : ℕ) : List K := m.layers.getD l []

/-- The similarities of a domain with the others on one layer. -/
def otherSims (sqrt : K → K) (data : List (String × DomainMatrix K)) (target : String × DomainMatrix K)
    (l : ℕ) : List K :=
  (data.filter (·.1 ≠ target.1)).map fun other => similarity sqrt (target.2.row l) (other.2.row l)

/-- One minus the average similarity with the others. -/
def isolation (sqrt : K → K) (data : List (String × DomainMatrix K)) (target : String × DomainMatrix K)
    (l : ℕ) : K :=
  1 - if otherSims sqrt data target l = [] then 1 else average (otherSims sqrt data target l)

end Model

section Shape

variable {K : Type} [Field K] [LinearOrder K] {sqrt log : K → K} {rows cols : ℕ}
  {data : List (String × DomainMatrix K)}

omit [Field K] [LinearOrder K] in
theorem rowAt_ok (hshape : OneShape rows cols data) {d : String × DomainMatrix K} (hd : d ∈ data) {l : ℕ}
    (hl : l < rows) : rowAt d.2 l = .ok (d.2.row l) ∧ (d.2.row l).length = cols := by
  have hlt : l < d.2.layers.length := by rw [(hshape d hd).1]; exact hl
  have hrow : d.2.row l = d.2.layers[l] := by rw [DomainMatrix.row, List.getD_eq_getElem _ _ hlt]
  refine ⟨?_, ?_⟩
  · rw [rowAt, List.getElem?_eq_getElem hlt, hrow]
  · rw [hrow, d.2.rectangular _ (List.getElem_mem hlt), (hshape d hd).2]

theorem layerIso_eq (hcols : 0 < cols) (hshape : OneShape rows cols data)
    {target : String × DomainMatrix K} (htarget : target ∈ data) {l : ℕ} (hl : l < rows) :
    layerIso sqrt data target l = .ok (isolation sqrt data target l) := by
  obtain ⟨hrow, hlength⟩ := rowAt_ok hshape htarget hl
  have hsims : (data.filter (·.1 ≠ target.1)).mapM (otherSim sqrt (target.2.row l) l) =
      .ok (otherSims sqrt data target l) := by
    apply mapM_eq_ok_map
    intro other hother
    obtain ⟨horow, holength⟩ := rowAt_ok hshape (List.mem_filter.mp hother).1 hl
    rw [otherSim, horow]
    refine if_pos ⟨List.ne_nil_of_length_pos (by omega), ?_⟩
    rw [hlength, holength]
  simp only [layerIso, hrow, hsims, bind, Except.bind, isolation]

omit [Field K] [LinearOrder K] in
theorem nLayers_eq (hne : data ≠ []) (hshape : OneShape rows cols data) : nLayers data = rows :=
  foldl_first_nonzero (f := fun d : String × DomainMatrix K => d.2.layers.length) hne
    fun d hd => (hshape d hd).1

omit [Field K] [LinearOrder K] in
theorem dataFrame_eq {columns : List (String × List K)} {n : ℕ} (h : ∀ c ∈ columns, c.2.length = n) :
    dataFrame columns = .ok columns := by
  apply if_pos
  intro c hc c' hc'
  rw [h c hc, h c' hc']

theorem OneShape.normalizeData {rawData : PyDict String (DomainMatrix K)}
    (hshape : OneShape rows cols rawData.entries) : OneShape rows cols (normalizeData rawData) := by
  intro d' hd'
  obtain ⟨d, hd, rfl⟩ := List.mem_map.mp hd'
  exact ⟨(List.length_map _).trans (hshape d hd).1, (hshape d hd).2⟩

/-- On matrices of one shape with an expert the analyzer returns, and the columns of the isolation table
are the isolations of the domains. -/
theorem analyzeLayerTrajectories_eq (hcols : 0 < cols) {rawData : PyDict String (DomainMatrix K)}
    (hne : rawData.entries ≠ []) (hshape : OneShape rows cols rawData.entries) :
    analyzeLayerTrajectories sqrt log rawData = .ok {
      layerSpecDf := (normalizeData rawData).map fun d => (d.1, d.2.layers.map (layerKl log cols))
      layerIsoDf := (normalizeData rawData).map fun target =>
        (target.1, (List.range rows).map (isolation sqrt (normalizeData rawData) target)) } := by
  have hnormal := hshape.normalizeData
  have hspec : (normalizeData rawData).mapM (specColumn log) =
      .ok ((normalizeData rawData).map fun d => (d.1, d.2.layers.map (layerKl log cols))) := by
    apply mapM_eq_ok_map
    intro d hd
    rw [specColumn, layerKls, (hnormal d hd).2, if_neg hcols.ne']
    rfl
  have hiso : (normalizeData rawData).mapM (isoColumn sqrt (normalizeData rawData) rows) =
      .ok ((normalizeData rawData).map fun target =>
        (target.1, (List.range rows).map (isolation sqrt (normalizeData rawData) target))) := by
    apply mapM_eq_ok_map
    intro target htarget
    rw [isoColumn, mapM_eq_ok_map fun l hl => layerIso_eq hcols hnormal htarget (List.mem_range.mp hl)]
    rfl
  have hnormalne : normalizeData rawData ≠ [] := by simpa [normalizeData] using hne
  simp only [analyzeLayerTrajectories, nLayers_eq hnormalne hnormal, hspec, hiso, bind, Except.bind]
  rw [dataFrame_eq (n := rows), dataFrame_eq (n := rows)]
  · intro c hc
    obtain ⟨d, -, rfl⟩ := List.mem_map.mp hc
    simp
  · intro c hc
    obtain ⟨d, hd, rfl⟩ := List.mem_map.mp hc
    exact (List.length_map _).trans (hnormal d hd).1

end Shape

/-! ## Non-negative counts -/

/-- No count is negative. -/
def NonNegative {K : Type} [Field K] [LinearOrder K] (data : List (String × DomainMatrix K)) : Prop :=
  ∀ d ∈ data, ∀ row ∈ d.2.layers, ∀ x ∈ row, 0 ≤ x

/-- Every layer row of the matrix multiplied by a factor of its own. -/
def DomainMatrix.scale {K : Type} [Field K] (c : ℕ → K) (m : DomainMatrix K) : DomainMatrix K where
  nExperts := m.nExperts
  layers := m.layers.mapIdx fun l row => row.map (c l * ·)
  rectangular := by
    intro row hrow
    obtain ⟨l, hl, rfl⟩ := List.mem_mapIdx.mp hrow
    rw [List.length_map, m.rectangular _ (List.getElem_mem hl)]

/-- Every layer row of every domain multiplied by a factor of its own. -/
def scaleRows {K : Type} [Field K] (c : String → ℕ → K) (rawData : PyDict String (DomainMatrix K)) :
    PyDict String (DomainMatrix K) where
  entries := rawData.entries.map fun d => (d.1, d.2.scale (c d.1))
  nodup := by
    rw [List.map_map]
    exact rawData.nodup

section Counts

variable {K : Type} [Field K] [LinearOrder K] [IsStrictOrderedRing K] {sqrt log : K → K}
  {rows cols : ℕ} {rawData : PyDict String (DomainMatrix K)}

theorem normalizeRow_nonneg {row : List K} (hrow : ∀ x ∈ row, 0 ≤ x) : ∀ x ∈ normalizeRow row, 0 ≤ x := by
  intro y hy
  obtain ⟨x, hx, rfl⟩ := List.mem_map.mp hy
  apply div_nonneg (hrow x hx)
  split
  · exact zero_le_one
  · exact List.sum_nonneg hrow

omit [IsStrictOrderedRing K] in
/-- A row of zeros stays as it is. -/
theorem normalizeRow_zero {row : List K} (hrow : ∀ x ∈ row, x = 0) : ∀ x ∈ normalizeRow row, x = 0 := by
  intro y hy
  obtain ⟨x, hx, rfl⟩ := List.mem_map.mp hy
  rw [hrow x hx, zero_div]

/-- Normalization forgets a positive factor. -/
theorem normalizeRow_scale {c : K} (hc : 0 < c) {row : List K} (hrow : ∀ x ∈ row, 0 ≤ x) :
    normalizeRow (row.map (c * ·)) = normalizeRow row := by
  have hsum : (row.map (c * ·)).sum = c * row.sum := by
    rw [List.sum_map_mul_left, List.map_id']
  rw [normalizeRow, normalizeRow, hsum, List.map_map]
  apply List.map_congr_left
  intro x hx
  by_cases hzero : row.sum = 0
  -- without negative counts a row that sums up to zero is a row of zeros
  · have hx0 : x = 0 := List.all_zero_of_le_zero_le_of_sum_eq_zero hrow hzero hx
    simp [hx0]
  · rw [if_neg hzero, if_neg (mul_ne_zero hc.ne' hzero)]
    exact mul_div_mul_left x row.sum hc.ne'

theorem normalize_scale {c : ℕ → K} (hc : ∀ l, 0 < c l) {m : DomainMatrix K}
    (hm : ∀ row ∈ m.layers, ∀ x ∈ row, 0 ≤ x) : (m.scale c).normalize = m.normalize := by
  have hlayers : (m.scale c).layers.map normalizeRow = m.layers.map normalizeRow := by
    apply List.ext_getElem?
    intro l
    rw [DomainMatrix.scale, List.getElem?_map, List.getElem?_map, List.getElem?_mapIdx, Option.map_map]
    cases hl : m.layers[l]? with
    | none => rfl
    | some row => exact congrArg some (normalizeRow_scale (hc l) (hm row (List.mem_of_getElem? hl)))
  simp only [DomainMatrix.normalize, hlayers]
  rfl

/-- The analyzer reads the normalized rows only. -/
theorem analyzeLayerTrajectories_scaleRows {c : String → ℕ → K} (hc : ∀ domain l, 0 < c domain l)
    (hcounts : NonNegative rawData.entries) :
    analyzeLayerTrajectories sqrt log (scaleRows c rawData) =
      analyzeLayerTrajectories sqrt log rawData := by
  have hnormal : normalizeData (scaleRows c rawData) = normalizeData rawData := by
    rw [normalizeData, normalizeData, scaleRows, List.map_map]
    apply List.map_congr_left
    intro d hd
    exact congrArg (d.1, ·) (normalize_scale (hc d.1) (hcounts d hd))
  rw [analyzeLayerTrajectories, analyzeLayerTrajectories, hnormal]

omit [IsStrictOrderedRing K] in
theorem row_normalize (m : DomainMatrix K) (l : ℕ) : m.normalize.row l = normalizeRow (m.row l) := by
  rw [DomainMatrix.row, DomainMatrix.row, DomainMatrix.normalize, List.getD_eq_getElem?_getD,
    List.getD_eq_getElem?_getD, List.getElem?_map]
  cases m.layers[l]? <;> rfl

theorem row_nonneg (hcounts : NonNegative rawData.entries) {d' : String × DomainMatrix K}
    (hd' : d' ∈ normalizeData rawData) (l : ℕ) : ∀ x ∈ d'.2.row l, 0 ≤ x := by
  obtain ⟨d, hd, rfl⟩ := List.mem_map.mp hd'
  rw [row_normalize]
  apply normalizeRow_nonneg
  rw [DomainMatrix.row, List.getD_eq_getElem?_getD]
  cases hl : d.2.layers[l]? with
  | none => simp
  | some row => exact hcounts d hd row (List.mem_of_getElem? hl)

section Isolation

variable (hsqrt : IsSqrt sqrt) {target : String × DomainMatrix K} (htarget : target ∈ normalizeData rawData)
  {l : ℕ}

include hsqrt htarget

/-- An isolation is one minus an average of similarities, each between zero and one. -/
theorem isolation_mem (hcounts : NonNegative rawData.entries) :
    0 ≤ isolation sqrt (normalizeData rawData) target l ∧
      isolation sqrt (normalizeData rawData) target l ≤ 1 := by
  rw [isolation]
  split
  · rw [sub_self]
    exact ⟨le_refl 0, zero_le_one⟩
  · have hsims : ∀ x ∈ otherSims sqrt (normalizeData rawData) target l, 0 ≤ x ∧ x ≤ 1 := by
      intro x hx
      obtain ⟨other, hother, rfl⟩ := List.mem_map.mp hx
      exact similarity_mem hsqrt (row_nonneg hcounts htarget l)
        (row_nonneg hcounts (List.mem_filter.mp hother).1 l)
    have haverage := average_mem hsims
    exact ⟨sub_nonneg.mpr haverage.2, sub_le_self 1 haverage.1⟩

/-- Domains with one row that is not zero are not isolated. -/
theorem isolation_eq_zero {row : List K} (hrow : ∀ d ∈ normalizeData rawData, d.2.row l = row) {x : K}
    (hx : x ∈ row) (hne : x ≠ 0) : isolation sqrt (normalizeData rawData) target l = 0 := by
  have hsims : ∀ y ∈ otherSims sqrt (normalizeData rawData) target l, y = 1 := by
    intro y hy
    obtain ⟨other, hother, rfl⟩ := List.mem_map.mp hy
    rw [hrow target htarget, hrow other (List.mem_filter.mp hother).1]
    exact similarity_self hsqrt hx hne
  rw [isolation]
  split
  · exact sub_self 1
  · rename_i hother
    rw [average_const hother hsims, sub_self]

omit hsqrt htarget in
/-- A domain without tokens on the layer is isolated from every other. -/
theorem isolation_eq_one (hdomains : 2 ≤ rawData.entries.length) (hrow : ∀ x ∈ target.2.row l, x = 0) :
    isolation sqrt (normalizeData rawData) target l = 1 := by
  obtain ⟨d, hd, hkey⟩ := rawData.exists_key_ne target.1 hdomains
  have hother : otherSims sqrt (normalizeData rawData) target l ≠ [] := by
    apply List.ne_nil_of_mem
    apply List.mem_map_of_mem
    exact List.mem_filter.mpr ⟨List.mem_map_of_mem hd, by simpa using hkey⟩
  have hsims : ∀ y ∈ otherSims sqrt (normalizeData rawData) target l, y = 0 := by
    intro y hy
    obtain ⟨other, -, rfl⟩ := List.mem_map.mp hy
    exact similarity_eq_zero sqrt hrow _
  rw [isolation, if_neg hother, average_const hother hsims, sub_zero]

end Isolation

end Counts

/-! ## The isolation table -/

section Table

variable {K : Type} [Field K] [LinearOrder K] {sqrt log : K → K} {rows cols : ℕ}
  {rawData : PyDict String (DomainMatrix K)} {t : Trajectories K}

/-- The analyzer raises without experts. -/
theorem pos_of_analyzeLayerTrajectories (hne : rawData.entries ≠ [])
    (hshape : OneShape rows cols rawData.entries)
    (h : analyzeLayerTrajectories sqrt log rawData = .ok t) : 0 < cols := by
  obtain ⟨specData, hspec, -⟩ := except_bind_eq_ok.mp h
  obtain ⟨d, hd⟩ := List.exists_mem_of_ne_nil _ hne
  have hd' : (d.1, d.2.normalize) ∈ normalizeData rawData := List.mem_map_of_mem hd
  obtain ⟨column, hcolumn⟩ := forall_of_mapM_eq_ok hspec _ hd'
  obtain ⟨kls, hkls, -⟩ := except_bind_eq_ok.mp hcolumn
  have hexperts : d.2.normalize.nExperts = cols := (hshape d hd).2
  rw [layerKls, hexperts] at hkls
  split at hkls
  · cases hkls
  · omega

theorem layerIsoDf_eq (hne : rawData.entries ≠ []) (hshape : OneShape rows cols rawData.entries)
    (h : analyzeLayerTrajectories sqrt log rawData = .ok t) :
    t.layerIsoDf = (normalizeData rawData).map fun target =>
      (target.1, (List.range rows).map (isolation sqrt (normalizeData rawData) target)) := by
  rw [analyzeLayerTrajectories_eq (pos_of_analyzeLayerTrajectories hne hshape h) hne hshape] at h
  cases h
  rfl

theorem keys_layerIsoDf (hne : rawData.entries ≠ []) (hshape : OneShape rows cols rawData.entries)
    (h : analyzeLayerTrajectories sqrt log rawData = .ok t) :
    t.layerIsoDf.map Prod.fst = rawData.keys := by
  rw [layerIsoDf_eq hne hshape h, List.map_map, normalizeData, List.map_map]
  rfl

/-- A column of the table is that of a domain. -/
theorem mem_layerIsoDf (hne : rawData.entries ≠ []) (hshape : OneShape rows cols rawData.entries)
    (h : analyzeLayerTrajectories sqrt log rawData = .ok t) {column : String × List K}
    (hcolumn : column ∈ t.layerIsoDf) :
    ∃ d ∈ rawData.entries, column = (d.1, (List.range rows).map
      (isolation sqrt (normalizeData rawData) (d.1, d.2.normalize))) := by
  rw [layerIsoDf_eq hne hshape h] at hcolumn
  obtain ⟨target, htarget, rfl⟩ := List.mem_map.mp hcolumn
  obtain ⟨d, hd, rfl⟩ := List.mem_map.mp htarget
  exact ⟨d, hd, rfl⟩

/-- The entry of a column on a layer. -/
theorem getElem?_isolations (target : String × DomainMatrix K) {l : ℕ} (hl : l < rows) :
    ((List.range rows).map (isolation sqrt (normalizeData rawData) target))[l]? =
      some (isolation sqrt (normalizeData rawData) target l) := by
  rw [List.getElem?_map, List.getElem?_range hl, Option.map_some]

variable [IsStrictOrderedRing K] (hsqrt : IsSqrt sqrt) (hne : rawData.entries ≠ [])
  (hshape : OneShape rows cols rawData.entries)
  (h : analyzeLayerTrajectories sqrt log rawData = .ok t)

include hne hshape h

include hsqrt in
theorem layerIsoDf_mem (hcounts : NonNegative rawData.entries) {column : String × List K}
    (hcolumn : column ∈ t.layerIsoDf) :
    column.2.length = rows ∧ ∀ x ∈ column.2, 0 ≤ x ∧ x ≤ 1 := by
  obtain ⟨d, hd, rfl⟩ := mem_layerIsoDf hne hshape h hcolumn
  refine ⟨by simp, fun x hx => ?_⟩
  obtain ⟨l, -, rfl⟩ := List.mem_map.mp hx
  exact isolation_mem hsqrt (List.mem_map_of_mem hd) hcounts

include hsqrt in
/-- Where the domains share a normalized row with tokens, no domain is isolated. -/
theorem layerIsoDf_eq_zero {l : ℕ} (hl : l < rows) {row : List K}
    (hrow : ∀ d ∈ rawData.entries, normalizeRow (d.2.row l) = row) {x : K} (hx : x ∈ row) (hxne : x ≠ 0)
    {column : String × List K} (hcolumn : column ∈ t.layerIsoDf) : column.2[l]? = some 0 := by
  obtain ⟨d, hd, rfl⟩ := mem_layerIsoDf hne hshape h hcolumn
  have hrow' : ∀ d' ∈ normalizeData rawData, d'.2.row l = row := by
    intro d' hd'
    obtain ⟨d, hd, rfl⟩ := List.mem_map.mp hd'
    rw [row_normalize, hrow d hd]
  rw [getElem?_isolations _ hl, isolation_eq_zero hsqrt (List.mem_map_of_mem hd) hrow' hx hxne]

/-- A domain without tokens on a layer is isolated there. -/
theorem layerIsoDf_eq_one (hdomains : 2 ≤ rawData.entries.length) {l : ℕ} (hl : l < rows)
    {d : String × DomainMatrix K} (hd : d ∈ rawData.entries) (hzero : ∀ x ∈ d.2.row l, x = 0)
    {column : String × List K} (hcolumn : column ∈ t.layerIsoDf) (hname : column.1 = d.1) :
    column.2[l]? = some 1 := by
  obtain ⟨d', hd', rfl⟩ := mem_layerIsoDf hne hshape h hcolumn
  obtain rfl := List.inj_on_of_nodup_map rawData.nodup hd' hd hname
  have hrow : ∀ x ∈ d'.2.normalize.row l, x = 0 := by
    rw [row_normalize]
    exact normalizeRow_zero hzero
  rw [getElem?_isolations _ hl, isolation_eq_one hdomains hrow]

end Table

theorem isSqrt_real : IsSqrt Real.sqrt := ⟨Real.sqrt_nonneg, fun _ h => Real.mul_self_sqrt h⟩

/-- Layer-wise isolation of at least two domains with matrices of one shape: between zero and one,
unchanged by positive factors on the rows, zero where the domains share a normalized row with tokens,
and one for every domain without tokens on the layer. -/
theorem layer_isolation_dissimilarity (rawData : PyDict String (DomainMatrix ℝ)) (rows cols : ℕ)
    (hdomains : 2 ≤ rawData.entries.length) (hshape : OneShape rows cols rawData.entries)
    (hcounts : NonNegative rawData.entries) :
    (0 < cols → ∃ t, analyzeLayerTrajectories Real.sqrt Real.log rawData = .ok t) ∧
    ∀ t, analyzeLayerTrajectories Real.sqrt Real.log rawData = .ok t →
      t.layerIsoDf.map Prod.fst = rawData.keys ∧
      (∀ column ∈ t.layerIsoDf, column.2.length = rows ∧ ∀ x ∈ column.2, 0 ≤ x ∧ x ≤ 1) ∧
      (∀ c : String → ℕ → ℝ, (∀ domain l, 0 < c domain l) →
        ∃ t', analyzeLayerTrajectories Real.sqrt Real.log (scaleRows c rawData) = .ok t' ∧
          t'.layerIsoDf = t.layerIsoDf) ∧
      (∀ (l : ℕ) (row : List ℝ), l < rows →
        (∀ d ∈ rawData.entries, normalizeRow (d.2.row l) = row) → (∃ x ∈ row, x ≠ 0) →
        ∀ column ∈ t.layerIsoDf, column.2[l]? = some 0) ∧
      (∀ (l : ℕ) (d : String × DomainMatrix ℝ), l < rows → d ∈ rawData.entries →
        (∀ x ∈ d.2.row l, x = 0) →
        ∀ column ∈ t.layerIsoDf, column.1 = d.1 → column.2[l]? = some 1) := by
  have hne : rawData.entries ≠ [] := List.ne_nil_of_length_pos (by omega)
  constructor
  · intro hcols
    exact ⟨_, analyzeLayerTrajectories_eq hcols hne hshape⟩
  intro t ht
  refine ⟨keys_layerIsoDf hne hshape ht, ?_, ?_, ?_, ?_⟩
  · intro column hcolumn
    exact layerIsoDf_mem isSqrt_real hne hshape ht hcounts hcolumn
  · intro c hc
    exact ⟨t, (analyzeLayerTrajectories_scaleRows hc hcounts).trans ht, rfl⟩
  · intro l row hl hrow ⟨x, hx, hxne⟩ column hcolumn
    exact layerIsoDf_eq_zero isSqrt_real hne hshape ht hl hrow hx hxne hcolumn
  · intro l d hl hd hzero column hcolumn hname
    exact layerIsoDf_eq_one hne hshape ht hdomains hl hd hzero hcolumn hname

/-- Two layers, the second one dense. -/
def sampleMatrix (K : Type) [Field K] (count : ℕ) : DomainMatrix K where
  nExperts := 2
  layers := [[(count : K), 0], [0, 0]]
  rectangular := by simp

/-- Two domains with the same routing. -/
def sampleDomains (K : Type) [Field K] : PyDict String (DomainMatrix K) where
  entries := [("code", sampleMatrix K 2), ("math", sampleMatrix K 3)]
  nodup := by simp

theorem oneShape_sampleDomains : OneShape 2 2 (sampleDomains ℝ).entries := by
  simp [OneShape, sampleDomains, sampleMatrix]

/-- On the first layer the two domains are not isolated. -/
theorem layer_isolation_sample :
    ∃ t, analyzeLayerTrajectories Real.sqrt Real.log (sampleDomains ℝ) = .ok t ∧
      t.layerIsoDf.map Prod.fst = ["code", "math"] ∧
      ∀ column ∈ t.layerIsoDf, column.2[0]? = some 0 := by
  have hcounts : NonNegative (sampleDomains ℝ).entries := by
    simp [NonNegative, sampleDomains, sampleMatrix]
  have h := layer_isolation_dissimilarity (sampleDomains ℝ) 2 2 (by decide) oneShape_sampleDomains hcounts
  obtain ⟨t, ht⟩ := h.1 (by decide)
  obtain ⟨hkeys, -, -, hshared, -⟩ := h.2 t ht
  refine ⟨t, ht, hkeys, hshared 0 [1, 0] (by decide) ?_ ⟨1, by simp, one_ne_zero⟩⟩
  simp [sampleDomains, sampleMatrix, DomainMatrix.row, normalizeRow]

/-- A dense layer, where both domains have the zero row, has isolation one and not zero. -/
theorem dense_layer_isolation :
    (∀ d ∈ (sampleDomains ℝ).entries, normalizeRow (d.2.row 1) = [0, 0]) ∧
    ∃ t, analyzeLayerTrajectories Real.sqrt Real.log (sampleDomains ℝ) = .ok t ∧
      t.layerIsoDf.map (fun column => column.2[1]?) = [some 1, some 1] := by
  have hne : (sampleDomains ℝ).entries ≠ [] := by simp [sampleDomains]
  have hzero : ∀ d ∈ (sampleDomains ℝ).entries, normalizeRow (d.2.row 1) = [0, 0] := by
    simp [sampleDomains, sampleMatrix, DomainMatrix.row, normalizeRow]
  have ht : analyzeLayerTrajectories Real.sqrt Real.log (sampleDomains ℝ) = .ok _ :=
    analyzeLayerTrajectories_eq (by decide) hne oneShape_sampleDomains
  have hone : ∀ d ∈ (sampleDomains ℝ).entries,
      isolation Real.sqrt (normalizeData (sampleDomains ℝ)) (d.1, d.2.normalize) 1 = 1 := by
    intro d hd
    apply isolation_eq_one (by decide)
    rw [row_normalize, hzero d hd]
    simp
  refine ⟨hzero, _, ht, ?_⟩
  show [some _, some _] = _
  rw [hone ("code", sampleMatrix ℝ 2) (by simp [sampleDomains]),
    hone ("math", sampleMatrix ℝ 3) (by simp [sampleDomains])]

end MoeSpecialization.Metrics.Analyzer
