import MoeSpecialization.Metrics.Isolation
import MoeSpecialization.Metrics.NGram

/-!
# The single-token routing ratio

Reference: `compute_routing_ratio_single_token` and `main` in `metric/utils/compute_expert_metrics.py`.

The ratio counts the first experts of all lines directly. The group n-gram statistics count the same
experts after they have been regrouped by request; a window of length one is a single token, so the
grouping cannot matter, not even where the number of a prompt is also a `request_id`. What carries the
proof is that the sequences of a layer, taken together, are a permutation of its first experts in file
order (`allExperts_extract`).
-/

namespace MoeSpecialization.Metrics

open Py Postprocess

namespace ComputeExpertMetrics

/-- An entry of `layer_stats`. -/
structure RoutingStats where
  totalTokens : ℕ := 0
  groupTokens : ℕ := 0
deriving DecidableEq

/-- The body of the loop over the layers of a line. -/
def addToken (expertGroups : PyDict ℤ (List ℤ)) (layerStats : PyDict ℤ RoutingStats) :
    String × LayerData → PyDict ℤ RoutingStats
  | (layerKey, layerData) =>
    match pyInt layerKey with
    | none => layerStats
    | some layerIdx =>
      match layerData.expertIds with
      | [] => layerStats
      | primaryExpert :: _ =>
        let group := (expertGroups.getD layerIdx []).toFinset
        let layerStats := layerStats.modify layerIdx {} fun s =>
          { s with totalTokens := s.totalTokens + 1 }
        if primaryExpert ∈ group then
          layerStats.modify layerIdx {} fun s => { s with groupTokens := s.groupTokens + 1 }
        else layerStats

/-- `compute_routing_ratio_single_token`. -/
def computeRoutingRatioSingleToken (records : List OutputRecord)
    (expertGroups : PyDict ℤ (List ℤ)) : PyDict ℤ RoutingStats :=
  records.foldl (fun layerStats record => record.layers.entries.foldl (addToken expertGroups) layerStats)
    ∅

/-- The ratio that `main` writes for a layer; a layer without stats has no tokens. -/
def routingRatio (routingStats : PyDict ℤ RoutingStats) (layerIdx : ℤ) : ℚ :=
  let stats := routingStats.getD layerIdx {}
  if stats.totalTokens > 0 then (stats.groupTokens : ℚ) / stats.totalTokens else 0

/-! ## What is counted -/

/-- The stats of some first experts, for a group. -/
def statsOf (group : List ℤ) (experts : List ℤ) : RoutingStats where
  totalTokens := experts.length
  groupTokens := experts.countP (· ∈ group)

/-- One layer of a line counts its first expert under the number of the layer. -/
theorem getD_addToken (expertGroups : PyDict ℤ (List ℤ)) (layerStats : PyDict ℤ RoutingStats)
    (p : String × LayerData) (l : ℤ) :
    (addToken expertGroups layerStats p).getD l {} =
      let s := layerStats.getD l {}
      let t := statsOf (expertGroups.getD l [])
        (if pyInt p.1 = some l then p.2.expertIds.head? else none).toList
      ⟨s.totalTokens + t.totalTokens, s.groupTokens + t.groupTokens⟩ := by
  obtain ⟨key, d⟩ := p
  simp only [addToken]
  cases hkey : pyInt key with
  | none => simp [statsOf]
  | some l' =>
    cases hids : d.expertIds with
    | nil => simp [statsOf]
    | cons e es =>
      by_cases hl : l = l'
      · subst hl
        by_cases he : e ∈ expertGroups.getD l []
        · simp [statsOf, he, PyDict.getD_modify]
        · simp [statsOf, he, PyDict.getD_modify]
      · by_cases he : e ∈ expertGroups.getD l' []
        · simp [statsOf, he, PyDict.getD_modify, hl, Ne.symm hl]
        · simp [statsOf, he, PyDict.getD_modify, hl, Ne.symm hl]

/-- The first experts of all lines on a layer, in file order. -/
def allPrimaryExperts (records : List OutputRecord) (l : ℤ) : List ℤ :=
  records.flatMap (primaryExperts · l)

theorem getD_foldl_addToken (expertGroups : PyDict ℤ (List ℤ)) (entries : List (String × LayerData))
    (layerStats : PyDict ℤ RoutingStats) (l : ℤ) {experts : List ℤ}
    (h : layerStats.getD l {} = statsOf (expertGroups.getD l []) experts) :
    (entries.foldl (addToken expertGroups) layerStats).getD l {} =
      statsOf (expertGroups.getD l []) (experts ++ entries.filterMap fun p =>
        if pyInt p.1 = some l then p.2.expertIds.head? else none) := by
  induction entries generalizing layerStats experts with
  | nil => simpa using h
  | cons p entries ih =>
    have hstep : (addToken expertGroups layerStats p).getD l {} =
        statsOf (expertGroups.getD l []) (experts ++
          (if pyInt p.1 = some l then p.2.expertIds.head? else none).toList) := by
      rw [getD_addToken, h]
      simp [statsOf]
    rw [List.foldl_cons, ih _ hstep, List.append_assoc, List.filterMap_cons]
    cases (if pyInt p.1 = some l then p.2.expertIds.head? else none) <;> rfl

/-- The stats of a layer are those of its first experts. -/
theorem getD_computeRoutingRatioSingleToken (records : List OutputRecord)
    (expertGroups : PyDict ℤ (List ℤ)) (l : ℤ) :
    (computeRoutingRatioSingleToken records expertGroups).getD l {} =
      statsOf (expertGroups.getD l []) (allPrimaryExperts records l) := by
  suffices key : ∀ (layerStats : PyDict ℤ RoutingStats) (experts : List ℤ),
      layerStats.getD l {} = statsOf (expertGroups.getD l []) experts →
      (records.foldl (fun layerStats record =>
        record.layers.entries.foldl (addToken expertGroups) layerStats) layerStats).getD l {} =
        statsOf (expertGroups.getD l []) (experts ++ allPrimaryExperts records l) from
    key ∅ [] rfl
  induction records with
  | nil =>
    intro layerStats experts h
    simpa [allPrimaryExperts] using h
  | cons record records ih =>
    intro layerStats experts h
    rw [List.foldl_cons, ih _ _ (getD_foldl_addToken expertGroups record.layers.entries layerStats l h),
      List.append_assoc]
    rfl

/-! ## What the sequences hold together -/

/-- The sequences of all requests on a layer, end to end. -/
def allExperts (seqs : Sequences) (l : ℤ) : List ℤ := seqs.values.flatMap (·.getD l [])

theorem allExperts_push (seqs : Sequences) (r : ℕ) (l e l' : ℤ) :
    (allExperts (seqs.push r l e) l').Perm (allExperts seqs l' ++ if l' = l then [e] else []) := by
  refine PyDict.flatMap_values_modify seqs r ∅ _ (·.getD l' []) rfl ?_
  rw [PyDict.getD_modify]
  by_cases hl : l' = l
  · rw [if_pos hl, if_pos hl, hl]
  · rw [if_neg hl, if_neg hl, List.append_nil]

theorem allExperts_pushLayer (seqs : Sequences) (r : ℕ) (p : String × LayerData) (l : ℤ) :
    (allExperts (pushLayer r seqs p) l).Perm (allExperts seqs l ++
      (if pyInt p.1 = some l then p.2.expertIds.head? else none).toList) := by
  obtain ⟨key, d⟩ := p
  simp only [pushLayer]
  cases pyInt key with
  | none => simp
  | some l' =>
    cases d.expertIds with
    | nil => simp
    | cons e es =>
      refine (allExperts_push seqs r l' e l).trans (List.Perm.of_eq ?_)
      by_cases hl : l = l'
      · simp [hl]
      · simp [hl, Ne.symm hl]

/-- Whatever request a line is filed under, it adds its first experts. -/
theorem allExperts_pushLayers (seqs : Sequences) (r : ℕ) (record : OutputRecord) (l : ℤ) :
    (allExperts (pushLayers r record seqs) l).Perm (allExperts seqs l ++ primaryExperts record l) := by
  rw [pushLayers, primaryExperts]
  generalize record.layers.entries = entries
  induction entries generalizing seqs with
  | nil => simp
  | cons p entries ih =>
    rw [List.foldl_cons, List.filterMap_cons]
    refine (ih _).trans (((allExperts_pushLayer seqs r p l).append_right _).trans (List.Perm.of_eq ?_))
    rw [List.append_assoc]
    cases (if pyInt p.1 = some l then p.2.expertIds.head? else none) <;> rfl

theorem allExperts_add (s : Extraction) (r : ℕ) (record : OutputRecord) (l : ℤ) :
    (allExperts (s.add r record).requestSequences l).Perm
      (allExperts s.requestSequences l ++ primaryExperts record l) := by
  rw [Extraction.add]
  split
  · rename_i hempty
    simp [primaryExperts, hempty]
  · exact allExperts_pushLayers s.requestSequences r record l

/-- The step of the loop: a line that belongs to a request is filed somewhere. -/
theorem allExperts_extractRecord {s s' : Extraction} {record : OutputRecord}
    (hid : HasIdentity record) (h : extractRecord s record = .ok s') (l : ℤ) :
    (allExperts s'.requestSequences l).Perm
      (allExperts s.requestSequences l ++ primaryExperts record l) := by
  cases hr : record.requestId with
  | some r =>
    rw [extractRecord, hr] at h
    cases h
    exact allExperts_add s r record l
  | none =>
    rcases hid with hid | hid
    · rw [hr] at hid
      cases hid
    · obtain ⟨prompt, hprompt⟩ := Option.isSome_iff_exists.mp hid
      rw [extractRecord_of_prompt hr hprompt] at h
      obtain ⟨⟨r, s₁⟩, hid, h⟩ := except_bind_eq_ok.mp h
      cases h
      -- numbering the prompt does not touch the sequences
      have hsame : s₁.requestSequences = s.requestSequences := by
        rw [promptId] at hid
        obtain ⟨k, -, hid⟩ := except_bind_eq_ok.mp hid
        split at hid <;> cases hid <;> rfl
      rw [← hsame]
      exact allExperts_add s₁ r record l

/-- The sequences of a layer are its first experts in another order. -/
theorem allExperts_extract {records : List OutputRecord} {seqs : Sequences}
    (hid : ∀ record ∈ records, HasIdentity record)
    (h : extractExpertSequencesByRequest records = .ok seqs) (l : ℤ) :
    (allExperts seqs l).Perm (allPrimaryExperts records l) := by
  obtain ⟨s, hs, hret⟩ := except_bind_eq_ok.mp h
  cases hret
  suffices key : ∀ s₀ : Extraction, records.foldlM extractRecord s₀ = .ok s →
      (allExperts s.requestSequences l).Perm
        (allExperts s₀.requestSequences l ++ allPrimaryExperts records l) from
    key {} hs
  clear h hs
  induction records with
  | nil =>
    intro s₀ hs
    cases hs
    simp [allPrimaryExperts]
  | cons record records ih =>
    intro s₀ hs
    rw [List.foldlM_cons] at hs
    obtain ⟨s₁, hstep, hs⟩ := except_bind_eq_ok.mp hs
    have hrest := ih (fun old hmem => hid old (by simp [hmem])) s₁ hs
    refine hrest.trans (((allExperts_extractRecord (hid record (by simp)) hstep l).append_right
      _).trans (List.Perm.of_eq ?_))
    rw [List.append_assoc]
    rfl

/-! ## Windows of length one -/

theorem ngrams_one (seq : List ℤ) : ngrams 1 seq = seq.map fun e => [e] := by
  cases seq with
  | nil => rfl
  | cons e seq =>
    rw [ngrams, if_neg (by simp)]
    refine List.ext_getElem (by simp) fun i hi _ => ?_
    simp only [List.length_map, List.length_range, List.length_cons] at hi
    rw [List.getElem_map, List.getElem_range, List.getElem_map,
      List.drop_eq_getElem_cons (by rw [List.length_cons]; omega), List.take_succ_cons, List.take_zero]

theorem layerNgrams_one (seqs : Sequences) (l : ℤ) :
    layerNgrams seqs 1 l = (allExperts seqs l).map fun e => [e] := by
  rw [layerNgrams, allExperts, List.map_flatMap]
  exact List.flatMap_congr fun layerData _ => ngrams_one _

theorem groupStatistics_one {expertGroups : PyDict ℤ (Finset ℤ)} {layer : ℕ}
    (hgroup : expertGroups.getD layer ∅ ≠ ∅) {seqs : Sequences} {experts : List ℤ}
    (hperm : (allExperts seqs layer).Perm experts) :
    (layerStatistics seqs expertGroups 1 layer).totalNgramPaths = experts.length ∧
      (layerStatistics seqs expertGroups 1 layer).groupNgramPaths =
        experts.countP (· ∈ expertGroups.getD layer ∅) := by
  obtain ⟨htotal, hpaths, -⟩ := layerStatistics_of seqs 1 hgroup
  rw [layerNgrams_one] at htotal hpaths
  constructor
  · rw [htotal, List.length_map, hperm.length_eq]
  · rw [hpaths, List.countP_map, ← hperm.countP_eq]
    refine List.countP_congr fun e _ => ?_
    simp

/-- The groups as `main` hands them to the n-gram statistics. -/
def expertGroupsSet (expertGroups : PyDict ℤ (List ℤ)) : PyDict ℤ (Finset ℤ) :=
  expertGroups.mapValues List.toFinset

theorem getD_expertGroupsSet (expertGroups : PyDict ℤ (List ℤ)) (l : ℤ) :
    (expertGroupsSet expertGroups).getD l ∅ = (expertGroups.getD l []).toFinset := by
  rw [PyDict.getD, PyDict.getD, expertGroupsSet, PyDict.get?_mapValues]
  cases expertGroups.get? l <;> rfl

/-- **The routing ratio is the 1-gram group ratio.** For lines that all belong to a request: the
sequences are extracted exactly if the prompts that identify lines can be keys of a dictionary, and then
the 1-gram statistics of every layer that has a group are those of the single tokens, and so is the
ratio. -/
theorem routing_ratio_eq_unigram_ratio {records : List OutputRecord}
    (hid : ∀ record ∈ records, HasIdentity record) (expertGroups : PyDict ℤ (List ℤ)) :
    ((∃ seqs, extractExpertSequencesByRequest records = .ok seqs) ↔ PromptsHashable records) ∧
    ∀ seqs, extractExpertSequencesByRequest records = .ok seqs →
      ∃ stats, calculateGroupNgramStatistics seqs (expertGroupsSet expertGroups) 1 = .ok stats ∧
        ∀ layer : ℕ, expertGroups.getD layer [] ≠ [] → ∃ g, stats.get? layer = some g ∧
          (computeRoutingRatioSingleToken records expertGroups).getD layer {} =
            ⟨g.totalNgramPaths, g.groupNgramPaths⟩ ∧
          g.groupNgramRatio =
            routingRatio (computeRoutingRatioSingleToken records expertGroups) layer := by
  constructor
  · constructor
    · rintro ⟨seqs, h⟩
      obtain ⟨s, hs, -⟩ := except_bind_eq_ok.mp h
      exact promptsHashable_of_foldlM hs
    · intro hashable
      obtain ⟨s, hs, -⟩ := foldlM_extractRecord hashable
      exact ⟨s.requestSequences, by rw [extractExpertSequencesByRequest, hs]; rfl⟩
  · intro seqs hseqs
    obtain ⟨stats, hstats, hlayers⟩ :=
      exists_calculateGroupNgramStatistics seqs (expertGroupsSet expertGroups) 1
    refine ⟨stats, hstats, fun layer hgroup => ?_⟩
    have hgroup' : (expertGroupsSet expertGroups).getD layer ∅ ≠ ∅ := by
      rw [getD_expertGroupsSet, Ne, List.toFinset_eq_empty_iff]
      exact hgroup
    obtain ⟨htotal, hpaths⟩ := groupStatistics_one hgroup' (allExperts_extract hid hseqs layer)
    have hstatsOf : (computeRoutingRatioSingleToken records expertGroups).getD layer {} =
        ⟨(layerStatistics seqs (expertGroupsSet expertGroups) 1 layer).totalNgramPaths,
          (layerStatistics seqs (expertGroupsSet expertGroups) 1 layer).groupNgramPaths⟩ := by
      rw [getD_computeRoutingRatioSingleToken, htotal, hpaths, statsOf, getD_expertGroupsSet]
      simp only [List.mem_toFinset]
    refine ⟨_, hlayers layer hgroup', hstatsOf, ?_⟩
    rw [layerStatistics_ratio seqs 1 hgroup', routingRatio, hstatsOf]

/-- A line with the expert `e` on layer 0. -/
def unigramLine (requestId : Option ℕ) (prompt : Json) (e : ℤ) : OutputRecord where
  layers := (∅ : PyDict String LayerData).set "0" { expertIds := [e], weights := [some 1] }
  prompt := some prompt
  requestId := requestId

/-- A line of request 0 between two lines of the prompt that gets the number 0. -/
theorem routing_ratio_eq_unigram_ratio_sample :
    let records := [unigramLine none (.str ['a']) 3, unigramLine (some 0) .null 4,
      unigramLine none (.str ['a']) 5]
    let expertGroups := (∅ : PyDict ℤ (List ℤ)).set 0 [3, 4]
    ∃ seqs stats g, extractExpertSequencesByRequest records = .ok seqs ∧
      calculateGroupNgramStatistics seqs (expertGroupsSet expertGroups) 1 = .ok stats ∧
      stats.get? 0 = some g ∧ g.groupNgramRatio =
        routingRatio (computeRoutingRatioSingleToken records expertGroups) 0 := by
  intro records expertGroups
  have hid : ∀ record ∈ records, HasIdentity record := by
    simp [records, unigramLine, HasIdentity, promptOf]
  have hashable : PromptsHashable records := by
    simp [PromptsHashable, records, unigramLine, promptOf, Json.hashKey]
  obtain ⟨hextract, hratio⟩ := routing_ratio_eq_unigram_ratio hid expertGroups
  obtain ⟨seqs, hseqs⟩ := hextract.mpr hashable
  obtain ⟨stats, hstats, hlayers⟩ := hratio seqs hseqs
  obtain ⟨g, hget, -, hg⟩ := hlayers 0 (by decide)
  exact ⟨seqs, stats, g, hseqs, hstats, hget, hg⟩

/-- The prompt of a line is a list of content parts: it is no key of `prompt_to_id`, and the extraction
raises where the single-token ratio has a count. -/
theorem list_prompt_raises :
    let records := [unigramLine none (.arr [.str ['a']]) 3]
    (∀ record ∈ records, HasIdentity record) ∧
      extractExpertSequencesByRequest records = .error .typeError ∧
      computeRoutingRatioSingleToken records ((∅ : PyDict ℤ (List ℤ)).set 0 [3]) =
        (∅ : PyDict ℤ RoutingStats).set 0 ⟨1, 1⟩ := by
  refine ⟨?_, rfl, by decide⟩
  simp [unigramLine, HasIdentity, promptOf]

end ComputeExpertMetrics

end MoeSpecialization.Metrics
