import MoeSpecialization.Metrics.CountMatrix
import MoeSpecialization.Metrics.LayerIsolation

/-!
# The model report

Reference: `MoEExpertAnalyzer` in `metric/utils/process_count_matrix.py`.

The analyzer fills its tables in stages: the basic indicators make the metrics table, the similarity
matrix gives one more column, and the model score is computed from columns read back by name. One of
the names that are read is not one that was written, so no sequence of calls gets past it.
-/

namespace MoeSpecialization.Metrics.Analyzer

open Py Cosine

/-- What the analyzer calls of numpy: the square root in the norms, the logarithm, the singular values
of a matrix, and rounding to four places. -/
structure Numeric (K : Type) where
  sqrt : K → K
  log : K → K
  svd : List (List K) → Except Error (List K)
  round4 : K → K

/-- One element of `results` in `analyze_indicators`. -/
structure Indicators (K : Type) where
  domain : String
  routingSpecialization : K
  internalDiversity : K
  conditionNumber : K
  effectiveRank : K

/-- A `pd.DataFrame` with the domains as its index. -/
structure Table (K : Type) where
  index : List String
  columns : PyDict String (List K)

/-- `df[name]`. -/
def Table.column {K : Type} (t : Table K) (name : String) : Except Error (List K) :=
  match t.columns.get? name with
  | some values => .ok values
  | none => .error .keyError

/-- `df[name] = values`. -/
def Table.setColumn {K : Type} (t : Table K) (name : String) (values : List K) :
    Except Error (Table K) :=
  if values.length = t.index.length then .ok { t with columns := t.columns.set name values }
  else .error (.valueError "Length of values does not match length of index")

/-- `pd.DataFrame(results).set_index('Domain')`: without results there is no such column. -/
def indicatorTable {K : Type} (results : List (Indicators K)) : Except Error (Table K) :=
  match results with
  | [] => .error .keyError
  | results => .ok {
      index := results.map (·.domain)
      columns := {
        entries := [("Routing_Specialization", results.map (·.routingSpecialization)),
          ("Internal_Diversity", results.map (·.internalDiversity)),
          ("Condition_Number", results.map (·.conditionNumber)),
          ("Effective_Rank", results.map (·.effectiveRank))]
        nodup := by simp } }

/-- The similarities of every domain with every domain, labelled on both sides. -/
abbrev SimilarityFrame (K : Type) := List (String × List (String × K))

/-- The row of `model_score`. -/
structure ModelScore (K : Type) where
  modelName : String
  esiTotalScore : K
  avgSpecialization : K
  avgIsolation : K

/-- The attributes of `MoEExpertAnalyzer`. -/
structure ExpertAnalyzer (K : Type) where
  modelName : String
  normalizedData : List (String × DomainMatrix K)
  metricsDf : Option (Table K) := none
  similarityDf : Option (SimilarityFrame K) := none
  modelScore : Option (ModelScore K) := none

/-- The sheets of the report. -/
structure Report (K : Type) where
  modelSummary : ModelScore K
  domainMetrics : Table K
  similarityMatrix : SimilarityFrame K

section Model

variable {K : Type} [Field K] [LinearOrder K] (lib : Numeric K)

/-- `MoEExpertAnalyzer(model_name, domain_matrices)`. -/
def ExpertAnalyzer.init (modelName : String) (domainMatrices : PyDict String (DomainMatrix K)) :
    ExpertAnalyzer K where
  modelName := modelName
  normalizedData := normalizeData domainMatrices

/-- The basic indicators of a domain. -/
def indicators (d : String × DomainMatrix K) : Except Error (Indicators K) := do
  let klScores ← layerKls lib.log d.2
  let s ← lib.svd d.2.layers
  let effectiveRank := s.sum ^ 2 / (s.map (· ^ 2)).sum
  let normDiversity := effectiveRank / ((min d.2.layers.length d.2.nExperts : ℕ) : K)
  match s.head?, s.getLast? with
  | some first, some last =>
    .ok { domain := d.1
          routingSpecialization := average klScores
          internalDiversity := min normDiversity 1
          conditionNumber := first / (last + epsilon)
          effectiveRank := effectiveRank }
  | _, _ => .error .indexError

/-- The row of a domain in the similarity matrix. Matrices of different sizes raise a `ValueError`, if
not here then in `np.array`. -/
def similarityRow (data : List (String × DomainMatrix K)) (d : String × DomainMatrix K) :
    Except Error (String × List (String × K)) := do
  let sims ← data.mapM fun other => cosineSimilarity lib.sqrt d.2.layers.flatten other.2.layers.flatten
  .ok (d.1, (data.map Prod.fst).zip sims)

/-- `_compute_domain_similarity`. -/
def computeDomainSimilarity (data : List (String × DomainMatrix K)) :
    Except Error (SimilarityFrame K) :=
  data.mapM (similarityRow lib data)

/-- `1.0 - similarity_df.loc[domain].drop(domain).mean()`. -/
def domainIsolation (similarityDf : SimilarityFrame K) (domain : String) : Except Error K :=
  match similarityDf.lookup domain with
  | some row => .ok (1 - average ((row.filter (·.1 ≠ domain)).map Prod.snd))
  | none => .error .keyError

/-- The isolation scores of the domains; a single domain has score zero. -/
def isolationScores (similarityDf : SimilarityFrame K) (domains : List String) : Except Error (List K) :=
  if 1 < domains.length then domains.mapM (domainIsolation similarityDf)
  else .ok (List.replicate domains.length 0)

/-- `analyze_indicators`. -/
def analyzeIndicators : PyM (ExpertAnalyzer K) (Table K) := do
  let self ← get
  let results ← PyM.ofExcept (self.normalizedData.mapM (indicators lib))
  let basic ← PyM.ofExcept (indicatorTable results)
  modify fun s => { s with metricsDf := some basic }
  let similarityDf ← PyM.ofExcept (computeDomainSimilarity lib self.normalizedData)
  modify fun s => { s with similarityDf := some similarityDf }
  let scores ← PyM.ofExcept (isolationScores similarityDf basic.index)
  let metricsDf ← PyM.ofExcept (basic.setColumn "Domain_Isolation" scores)
  modify fun s => { s with metricsDf := some metricsDf }
  pure metricsDf

/-- `if self.metrics_df is None: self.analyze_indicators()`. -/
def ensureMetrics : PyM (ExpertAnalyzer K) (Table K) := do
  let self ← get
  match self.metricsDf with
  | some metricsDf => pure metricsDf
  | none => analyzeIndicators lib

/-- `calculate_model_score`. -/
def calculateModelScore : PyM (ExpertAnalyzer K) (ModelScore K) := do
  let metricsDf ← ensureMetrics lib
  let spec ← PyM.ofExcept (metricsDf.column "NRS")
  let iso ← PyM.ofExcept (metricsDf.column "Domain_Isolation")
  let esiScore := 1 / 2 * (average spec / 2) + 1 / 2 * average iso
  let self ← get
  let modelScore : ModelScore K := {
    modelName := self.modelName
    esiTotalScore := lib.round4 esiScore
    avgSpecialization := lib.round4 (average spec)
    avgIsolation := lib.round4 (average iso) }
  set { self with modelScore := some modelScore }
  pure modelScore

/-- `if self.model_score is None: self.calculate_model_score()`. -/
def ensureScore : PyM (ExpertAnalyzer K) (ModelScore K) := do
  let self ← get
  match self.modelScore with
  | some modelScore => pure modelScore
  | none => calculateModelScore lib

/-- `save_analysis_report`, up to the sheets that are handed to the Excel writer; `None` has no
`to_excel`. -/
def saveAnalysisReport : PyM (ExpertAnalyzer K) (Report K) := do
  let metricsDf ← ensureMetrics lib
  let modelScore ← ensureScore lib
  let self ← get
  match self.similarityDf with
  | some similarityDf => pure ⟨modelScore, metricsDf, similarityDf⟩
  | none => throw .attributeError

/-- The methods of the analyzer that make and save the report. -/
inductive ReportOp where
  | analyzeIndicators
  | calculateModelScore
  | saveAnalysisReport

/-- A call of a method; an exception goes to the caller. -/
def callMethod : ReportOp → PyM (ExpertAnalyzer K) Unit
  | .analyzeIndicators => do let _ ← analyzeIndicators lib
  | .calculateModelScore => do let _ ← calculateModelScore lib
  | .saveAnalysisReport => do let _ ← saveAnalysisReport lib

/-- The analyzer after some calls. -/
def analyzerAfter (s : ExpertAnalyzer K) (ops : List ReportOp) : ExpertAnalyzer K :=
  ops.foldl (fun s op => PyM.final (callMethod lib op) s) s

end Model

/-! ## The columns that are written -/

/-- The columns of the metrics table once `analyze_indicators` has returned. -/
def metricsColumns : List String :=
  ["Routing_Specialization", "Internal_Diversity", "Condition_Number", "Effective_Rank",
    "Domain_Isolation"]

section Returns

variable {K : Type} [Field K] [LinearOrder K] {lib : Numeric K} {rows cols : ℕ}
  {data : List (String × DomainMatrix K)}

theorem indicators_ok {d : String × DomainMatrix K} (hcols : 0 < d.2.nExperts)
    (hsvd : ∃ s, lib.svd d.2.layers = .ok s ∧ s ≠ []) :
    ∃ r, indicators lib d = .ok r := by
  obtain ⟨s, hs, hne⟩ := hsvd
  have hhead := List.head?_eq_some_head hne
  have hlast := List.getLast?_eq_some_getLast hne
  simp only [indicators, layerKls, if_neg hcols.ne', hs, hhead, hlast, bind, Except.bind]
  exact ⟨_, rfl⟩

theorem domain_indicators {d : String × DomainMatrix K} {r : Indicators K}
    (h : indicators lib d = .ok r) : r.domain = d.1 := by
  obtain ⟨klScores, -, h⟩ := except_bind_eq_ok.mp h
  obtain ⟨s, -, h⟩ := except_bind_eq_ok.mp h
  dsimp only at h
  split at h
  · cases h
    rfl
  · cases h

omit [Field K] [LinearOrder K] in
theorem indicatorTable_ok {results : List (Indicators K)} (hne : results ≠ []) :
    ∃ basic, indicatorTable results = .ok basic ∧ basic.index = results.map (·.domain) ∧
      basic.columns.keys =
        ["Routing_Specialization", "Internal_Diversity", "Condition_Number", "Effective_Rank"] := by
  cases results with
  | nil => exact absurd rfl hne
  | cons r results => exact ⟨_, rfl, rfl, rfl⟩

omit [Field K] [LinearOrder K] in
theorem length_flatten_layers (m : DomainMatrix K) :
    m.layers.flatten.length = m.layers.length * m.nExperts :=
  HasShape.length_flatten ⟨rfl, m.rectangular⟩

theorem similarityRow_ok (hshape : OneShape rows cols data) (hpos : 0 < rows * cols)
    {d : String × DomainMatrix K} (hd : d ∈ data) :
    ∃ row, similarityRow lib data d = .ok row ∧ row.1 = d.1 := by
  have hlength : ∀ d ∈ data, d.2.layers.flatten.length = rows * cols := by
    intro d hd
    rw [length_flatten_layers, (hshape d hd).1, (hshape d hd).2]
  obtain ⟨sims, hsims⟩ := exists_mapM_eq_ok (f := fun other : String × DomainMatrix K =>
      cosineSimilarity lib.sqrt d.2.layers.flatten other.2.layers.flatten) data fun other hother => by
    refine ⟨_, if_pos ⟨List.ne_nil_of_length_pos ?_, ?_⟩⟩
    · rw [hlength d hd]
      exact hpos
    · rw [hlength d hd, hlength other hother]
  refine ⟨(d.1, (data.map Prod.fst).zip sims), ?_, rfl⟩
  rw [similarityRow, hsims]
  rfl

theorem computeDomainSimilarity_ok (hshape : OneShape rows cols data) (hpos : 0 < rows * cols) :
    ∃ sim, computeDomainSimilarity lib data = .ok sim ∧ sim.map Prod.fst = data.map Prod.fst := by
  obtain ⟨sim, hsim⟩ := exists_mapM_eq_ok (f := similarityRow lib data) data fun d hd => by
    obtain ⟨row, hrow, -⟩ := similarityRow_ok hshape hpos hd
    exact ⟨row, hrow⟩
  refine ⟨sim, hsim, map_of_mapM_eq_ok (fun d row hrow => ?_) hsim⟩
  obtain ⟨sims, -, h⟩ := except_bind_eq_ok.mp hrow
  cases h
  rfl

omit [LinearOrder K] in
theorem isolationScores_ok {sim : SimilarityFrame K} {domains : List String}
    (hsim : sim.map Prod.fst = domains) :
    ∃ scores, isolationScores sim domains = .ok scores ∧ scores.length = domains.length := by
  have hscore : ∀ domain ∈ domains, ∃ score, domainIsolation sim domain = .ok score := by
    intro domain hdomain
    rw [← hsim] at hdomain
    obtain ⟨p, hp, rfl⟩ := List.mem_map.mp hdomain
    have hsome : (sim.lookup p.1).isSome := List.lookup_isSome_iff.mpr ⟨p, hp, by simp⟩
    obtain ⟨row, hrow⟩ := Option.isSome_iff_exists.mp hsome
    exact ⟨_, by rw [domainIsolation, hrow]⟩
  rw [isolationScores]
  split
  · obtain ⟨scores, hscores⟩ := exists_mapM_eq_ok domains hscore
    exact ⟨scores, hscores, length_of_mapM_eq_ok hscores⟩
  · exact ⟨_, rfl, List.length_replicate⟩

/-- `analyze_indicators` returns, and leaves a table with the columns it names. -/
theorem analyzeIndicators_run (hne : data ≠ []) (hshape : OneShape rows cols data) (hrows : 0 < rows)
    (hcols : 0 < cols) (hsvd : ∀ d ∈ data, ∃ s, lib.svd d.2.layers = .ok s ∧ s ≠ []) :
    ∃ table sim, table.columns.keys = metricsColumns ∧
      ∀ s : ExpertAnalyzer K, s.normalizedData = data →
        (analyzeIndicators lib).run s =
          .ok table { s with metricsDf := some table, similarityDf := some sim } := by
  obtain ⟨results, hresults⟩ := exists_mapM_eq_ok (f := indicators lib) data fun d hd =>
    indicators_ok (by rw [(hshape d hd).2]; exact hcols) (hsvd d hd)
  have hdomains : results.map (·.domain) = data.map Prod.fst :=
    map_of_mapM_eq_ok (fun d r hr => domain_indicators hr) hresults
  have hresultsne : results ≠ [] := by
    apply List.ne_nil_of_length_pos
    rw [length_of_mapM_eq_ok hresults]
    exact List.length_pos_iff.mpr hne
  obtain ⟨basic, hbasic, hindex, hkeys⟩ := indicatorTable_ok hresultsne
  obtain ⟨sim, hsim, hlabels⟩ : ∃ sim, computeDomainSimilarity lib data = .ok sim ∧
      sim.map Prod.fst = data.map Prod.fst :=
    computeDomainSimilarity_ok hshape (Nat.mul_pos hrows hcols)
  rw [hdomains] at hindex
  obtain ⟨scores, hscores, hlength⟩ := isolationScores_ok (hlabels.trans hindex.symm)
  refine ⟨{ basic with columns := basic.columns.set "Domain_Isolation" scores }, sim, ?_, ?_⟩
  · rw [PyDict.keys_set, hkeys]
    rfl
  · intro s hs
    have hset : basic.setColumn "Domain_Isolation" scores =
        .ok { basic with columns := basic.columns.set "Domain_Isolation" scores } := if_pos hlength
    rw [analyzeIndicators, PyM.run_bind_of_ok (PyM.run_get s), hs]
    simp only [hresults, hbasic, hsim, hscores, hset, PyM.ofExcept_ok_bind]
    rw [← hs]
    rfl

end Returns

/-! ## The column that is read -/

section Report

variable {K : Type} [Field K] [LinearOrder K] {lib : Numeric K} {table : Table K}
  {sim : SimilarityFrame K} {s : ExpertAnalyzer K}

omit [Field K] [LinearOrder K] in
/-- No column has the name that the score asks for. -/
theorem column_nrs (hkeys : table.columns.keys = metricsColumns) :
    table.column "NRS" = .error .keyError := by
  have hnone : table.columns.get? "NRS" = none := by
    rw [← Option.not_isSome_iff_eq_none, PyDict.get?_isSome_iff, hkeys]
    decide
  rw [Table.column, hnone]

/-- The analyzer before or after a successful `analyze_indicators`. -/
structure Reached (data : List (String × DomainMatrix K)) (table : Table K) (s : ExpertAnalyzer K) :
    Prop where
  normalizedData : s.normalizedData = data
  metricsDf : s.metricsDf = none ∨ s.metricsDf = some table
  modelScore : s.modelScore = none

/-- The analyzer after a successful `analyze_indicators`. -/
structure Analyzed (data : List (String × DomainMatrix K)) (table : Table K) (s : ExpertAnalyzer K) :
    Prop extends Reached data table s where
  hasTable : s.metricsDf = some table

variable {data : List (String × DomainMatrix K)} (hkeys : table.columns.keys = metricsColumns)
  (hrun : ∀ s : ExpertAnalyzer K, s.normalizedData = data → (analyzeIndicators lib).run s =
    .ok table { s with metricsDf := some table, similarityDf := some sim })
  (h : Reached data table s)

include hrun h

theorem analyzeIndicators_reached :
    ∃ s', (analyzeIndicators lib).run s = .ok table s' ∧ Analyzed data table s' :=
  ⟨_, hrun s h.normalizedData, ⟨h.normalizedData, .inr rfl, h.modelScore⟩, rfl⟩

theorem ensureMetrics_reached :
    ∃ s', (ensureMetrics lib).run s = .ok table s' ∧ Analyzed data table s' := by
  rw [ensureMetrics, PyM.run_bind_of_ok (PyM.run_get s)]
  rcases h.metricsDf with hnone | hsome
  · rw [hnone]
    exact analyzeIndicators_reached hrun h
  · rw [hsome]
    exact ⟨s, rfl, h, hsome⟩

include hkeys

/-- The score is never computed. -/
theorem calculateModelScore_reached :
    ∃ s', (calculateModelScore lib).run s = .error .keyError s' ∧ Analyzed data table s' := by
  obtain ⟨s', hs', hreached⟩ := ensureMetrics_reached hrun h
  refine ⟨s', ?_, hreached⟩
  rw [calculateModelScore, PyM.run_bind_of_ok hs', column_nrs hkeys]
  rfl

theorem saveAnalysisReport_reached :
    ∃ s', (saveAnalysisReport lib).run s = .error .keyError s' ∧ Analyzed data table s' := by
  obtain ⟨s', hs', hreached⟩ := ensureMetrics_reached hrun h
  obtain ⟨s'', hs'', hreached'⟩ := calculateModelScore_reached hkeys hrun hreached.toReached
  refine ⟨s'', ?_, hreached'⟩
  have hscore : (ensureScore lib).run s' = .error .keyError s'' := by
    rw [ensureScore, PyM.run_bind_of_ok (PyM.run_get s'), hreached.modelScore]
    exact hs''
  rw [saveAnalysisReport, PyM.run_bind_of_ok hs', PyM.run_bind_of_error hscore]

/-- No method call leaves the reached states. -/
theorem callMethod_reached (op : ReportOp) : Reached data table (PyM.final (callMethod lib op) s) := by
  cases op with
  | analyzeIndicators =>
    obtain ⟨s', hs', hreached⟩ := analyzeIndicators_reached hrun h
    rw [callMethod, PyM.final, PyM.run_bind_of_ok hs']
    exact hreached.toReached
  | calculateModelScore =>
    obtain ⟨s', hs', hreached⟩ := calculateModelScore_reached hkeys hrun h
    rw [callMethod, PyM.final, PyM.run_bind_of_error hs']
    exact hreached.toReached
  | saveAnalysisReport =>
    obtain ⟨s', hs', hreached⟩ := saveAnalysisReport_reached hkeys hrun h
    rw [callMethod, PyM.final, PyM.run_bind_of_error hs']
    exact hreached.toReached

theorem analyzerAfter_reached (ops : List ReportOp) : Reached data table (analyzerAfter lib s ops) := by
  induction ops generalizing s with
  | nil => exact h
  | cons op ops ih => exact ih (callMethod_reached hkeys hrun h op)

end Report

/-- On every non-empty dictionary of matrices of one shape, each with an entry, and after any calls,
saving the report raises a `KeyError`: the metrics table is complete, and the score reads a column
that is not in it. -/
theorem report_raises_keyError {K : Type} [Field K] [LinearOrder K] (lib : Numeric K)
    (modelName : String) (domainMatrices : PyDict String (DomainMatrix K)) (rows cols : ℕ)
    (hne : domainMatrices.entries ≠ []) (hshape : OneShape rows cols domainMatrices.entries)
    (hentry : ∀ d ∈ domainMatrices.entries, ∃ row ∈ d.2.layers, ∃ x ∈ row, x ≠ 0)
    (hsvd : ∀ d ∈ domainMatrices.entries,
      ∃ s, lib.svd d.2.normalize.layers = .ok s ∧ s ≠ []) (ops : List ReportOp) :
    ∃ s' table, (saveAnalysisReport lib).run
        (analyzerAfter lib (ExpertAnalyzer.init modelName domainMatrices) ops) = .error .keyError s' ∧
      s'.metricsDf = some table ∧ table.columns.keys = metricsColumns ∧ "NRS" ∉ table.columns.keys ∧
      s'.modelScore = none := by
  obtain ⟨d, hd⟩ := List.exists_mem_of_ne_nil _ hne
  obtain ⟨row, hrow, x, hx, -⟩ := hentry d hd
  have hrows : 0 < rows := by
    rw [← (hshape d hd).1]
    exact List.length_pos_of_mem hrow
  have hcols : 0 < cols := by
    rw [← (hshape d hd).2, ← d.2.rectangular row hrow]
    exact List.length_pos_of_mem hx
  have hsvd' : ∀ d' ∈ normalizeData domainMatrices, ∃ s, lib.svd d'.2.layers = .ok s ∧ s ≠ [] := by
    intro d' hd'
    obtain ⟨d, hd, rfl⟩ := List.mem_map.mp hd'
    exact hsvd d hd
  have hdata : normalizeData domainMatrices ≠ [] := by simpa [normalizeData] using hne
  obtain ⟨table, sim, hkeys, hrun⟩ :=
    analyzeIndicators_run hdata hshape.normalizeData hrows hcols hsvd'
  have hinit : Reached (normalizeData domainMatrices) table
      (ExpertAnalyzer.init modelName domainMatrices) := ⟨rfl, .inl rfl, rfl⟩
  obtain ⟨s', hs', hanalyzed⟩ :=
    saveAnalysisReport_reached hkeys hrun (analyzerAfter_reached hkeys hrun hinit ops)
  refine ⟨s', table, hs', hanalyzed.hasTable, hkeys, ?_, hanalyzed.modelScore⟩
  rw [hkeys]
  decide

/-- One layer, one expert, one token. -/
def oneToken : PyDict String (DomainMatrix ℚ) where
  entries := [("math", { nExperts := 1, layers := [[1]], rectangular := by simp })]
  nodup := by simp

/-- The numeric functions at one: its square root, its logarithm, and the singular value of the matrix
that has it as its only entry. -/
def numericAtOne : Numeric ℚ where
  sqrt x := x
  log x := x - 1
  svd m := .ok m.flatten
  round4 x := (x * 10 ^ 4 + 1 / 2).floor / 10 ^ 4

theorem report_raises_keyError_oneToken :
    ∃ s' table, (saveAnalysisReport numericAtOne).run
        (analyzerAfter numericAtOne (ExpertAnalyzer.init "model" oneToken) [.analyzeIndicators]) =
          .error .keyError s' ∧
      s'.metricsDf = some table ∧ table.columns.keys = metricsColumns ∧ "NRS" ∉ table.columns.keys ∧
      s'.modelScore = none :=
  report_raises_keyError numericAtOne "model" oneToken 1 1 (by simp [oneToken])
    (by simp [OneShape, oneToken]) (by simp [oneToken])
    (by simp [oneToken, numericAtOne, DomainMatrix.normalize, normalizeRow]) _

/-- The report of a single domain with a single token. -/
theorem report_lookup_error :
    ∃ s', (saveAnalysisReport numericAtOne).run (ExpertAnalyzer.init "model" oneToken) =
      .error .keyError s' :=
  ⟨_, rfl⟩

end MoeSpecialization.Metrics.Analyzer
