import MoeSpecialization.Metrics.RoutingRatio

/-!
# The primary expert of a token

Reference: `compute_routing_ratio_single_token` and the two `extract_expert_sequences_by_request`.

All three take the first of the `expert_ids` of a layer as the main expert of the token, as their
docstrings say, and none of them looks at the weights. The slots of a layer may stand in any order, since
the router asks for its top-k unsorted, so a line whose slots are permuted has the same experts and
weights but possibly another main expert. The statistics are those of the first experts
(`SameStatistics`): they are unchanged if every layer keeps its first expert, and a permutation of one
layer changes them if it does not (`statistics_of_first_experts`).
-/

namespace MoeSpecialization.Metrics

open Py Postprocess

/-! ## Permuting slots -/

/-- The layer with its slots in the given order: ids, weights and logits together. -/
def LayerData.reorder (d : LayerData) (order : List ℕ) : LayerData :=
  { d with
    expertIds := order.filterMap (d.expertIds[·]?)
    weights := order.filterMap (d.weights[·]?)
    logits := d.logits.map fun logits => order.filterMap (logits[·]?) }

/-- The second layer is the first one with its slots permuted. -/
def LayerPermuted (d d' : LayerData) : Prop :=
  ∃ order : List ℕ, order.Perm (List.range d.expertIds.length) ∧ d' = LayerData.reorder d order

/-- The second line is the first one with the slots of its layers permuted. -/
structure SlotsPermuted (record record' : OutputRecord) : Prop where
  fields : record' = { record with layers := record'.layers }
  layers : List.Forall₂ (fun p p' => p'.1 = p.1 ∧ LayerPermuted p.2 p'.2)
    record.layers.entries record'.layers.entries

/-- Every layer has the same first expert in both lines. -/
def FirstKept (record record' : OutputRecord) : Prop :=
  List.Forall₂ (fun p p' => p'.2.expertIds.head? = p.2.expertIds.head?)
    record.layers.entries record'.layers.entries

/-- The group n-gram statistics of some lines, as `main` computes them. -/
def groupNgramsOf (records : List OutputRecord) (expertGroups : PyDict ℤ (Finset ℤ)) (n : ℕ) :
    Except Error (PyDict ℕ ComputeExpertMetrics.GroupNgramStatistics) := do
  let requestSequences ← ComputeExpertMetrics.extractExpertSequencesByRequest records
  ComputeExpertMetrics.calculateGroupNgramStatistics requestSequences expertGroups n

/-- The n-gram statistics of some lines, self-loops included. -/
def ngramsOf (records : List OutputRecord) (n : ℕ) :
    Except Error (PyDict ℕ NGramStatistics.LayerNgramStatistics) :=
  NGramStatistics.calculateNgramStatistics
    (NGramStatistics.extractExpertSequencesByRequest records) n

/-- The routing ratio, the group n-grams and the n-grams with their self-loops are the same for two lists
of lines, whatever the groups and `n` are. -/
structure SameStatistics (records records' : List OutputRecord) : Prop where
  routing : ∀ expertGroups, ComputeExpertMetrics.computeRoutingRatioSingleToken records' expertGroups =
    ComputeExpertMetrics.computeRoutingRatioSingleToken records expertGroups
  groupNgrams : ∀ expertGroups n, groupNgramsOf records' expertGroups n =
    groupNgramsOf records expertGroups n
  ngrams : ∀ n, ngramsOf records' n = ngramsOf records n

/-! ## What the statistics read of a line -/

theorem foldl_eq_of_forall₂ {σ α : Type} {f : σ → α → σ} {xs ys : List α}
    (h : List.Forall₂ (fun x y => ∀ s, f s y = f s x) xs ys) (s : σ) :
    ys.foldl f s = xs.foldl f s := by
  induction h generalizing s with
  | nil => rfl
  | cons hxy _ ih => rw [List.foldl_cons, List.foldl_cons, hxy, ih]

theorem foldlM_eq_of_forall₂ {ε σ α : Type} {f : σ → α → Except ε σ} {xs ys : List α}
    (h : List.Forall₂ (fun x y => ∀ s, f s y = f s x) xs ys) (s : σ) :
    ys.foldlM f s = xs.foldlM f s := by
  induction h generalizing s with
  | nil => rfl
  | cons hxy _ ih =>
    rw [List.foldlM_cons, List.foldlM_cons, hxy]
    exact bind_congr fun s' => ih s'

/-- What the three functions read of a line: its request, its prompt, and the number and the first expert
of every layer. -/
structure SameFirsts (record record' : OutputRecord) : Prop where
  requestId : record'.requestId = record.requestId
  prompt : record'.prompt = record.prompt
  layers : List.Forall₂ (fun p p' => p'.1 = p.1 ∧ p'.2.expertIds.head? = p.2.expertIds.head?)
    record.layers.entries record'.layers.entries

theorem SlotsPermuted.sameFirsts {record record' : OutputRecord} (h : SlotsPermuted record record')
    (hfirst : FirstKept record record') : SameFirsts record record' := by
  refine ⟨by rw [h.fields], by rw [h.fields], ?_⟩
  have hlayers := h.layers
  unfold FirstKept at hfirst
  revert hfirst hlayers
  generalize record.layers.entries = es
  generalize record'.layers.entries = es'
  intro hfirst hlayers
  induction hlayers with
  | nil => exact .nil
  | cons hkey _ ih =>
    cases hfirst with
    | cons hhead htail => exact .cons ⟨hkey.1, hhead⟩ (ih htail)

theorem pushLayer_of_first {p p' : String × LayerData} (hkey : p'.1 = p.1)
    (hfirst : p'.2.expertIds.head? = p.2.expertIds.head?) (r : ℕ) (seqs : Sequences) :
    pushLayer r seqs p' = pushLayer r seqs p := by
  obtain ⟨key, d⟩ := p
  obtain ⟨key', d'⟩ := p'
  cases hkey
  simp only [pushLayer]
  cases pyInt key with
  | none => rfl
  | some l =>
    cases hids : d.expertIds <;> cases hids' : d'.expertIds <;> simp_all

theorem addToken_of_first {p p' : String × LayerData} (hkey : p'.1 = p.1)
    (hfirst : p'.2.expertIds.head? = p.2.expertIds.head?) (expertGroups : PyDict ℤ (List ℤ))
    (layerStats : PyDict ℤ ComputeExpertMetrics.RoutingStats) :
    ComputeExpertMetrics.addToken expertGroups layerStats p' =
      ComputeExpertMetrics.addToken expertGroups layerStats p := by
  obtain ⟨key, d⟩ := p
  obtain ⟨key', d'⟩ := p'
  cases hkey
  simp only [ComputeExpertMetrics.addToken]
  cases pyInt key with
  | none => rfl
  | some l =>
    cases hids : d.expertIds <;> cases hids' : d'.expertIds <;> simp_all

theorem SameFirsts.pushLayers {record record' : OutputRecord} (h : SameFirsts record record') (r : ℕ)
    (seqs : Sequences) : pushLayers r record' seqs = pushLayers r record seqs :=
  foldl_eq_of_forall₂ (h.layers.imp fun _ _ hp seqs => pushLayer_of_first hp.1 hp.2 r seqs) seqs

theorem SameFirsts.entries_eq_nil_iff {record record' : OutputRecord} (h : SameFirsts record record') :
    record'.layers.entries = [] ↔ record.layers.entries = [] := by
  have hlen := h.layers.length_eq
  rw [← List.length_eq_zero_iff, ← List.length_eq_zero_iff, hlen]

theorem SameFirsts.extractRecord {record record' : OutputRecord} (h : SameFirsts record record')
    (seqs : Sequences) :
    NGramStatistics.extractRecord seqs record' = NGramStatistics.extractRecord seqs record := by
  simp only [NGramStatistics.extractRecord, h.requestId, h.entries_eq_nil_iff, h.pushLayers]

theorem SameFirsts.add {record record' : OutputRecord} (h : SameFirsts record record')
    (s : ComputeExpertMetrics.Extraction) (r : ℕ) : s.add r record' = s.add r record := by
  simp only [ComputeExpertMetrics.Extraction.add, h.entries_eq_nil_iff, h.pushLayers]

theorem SameFirsts.extractRecordByPrompt {record record' : OutputRecord}
    (h : SameFirsts record record') (s : ComputeExpertMetrics.Extraction) :
    ComputeExpertMetrics.extractRecord s record' = ComputeExpertMetrics.extractRecord s record := by
  simp only [ComputeExpertMetrics.extractRecord, h.requestId, h.prompt, h.add]

/-- Lines with the same first experts have the same statistics. -/
theorem sameStatistics_of_sameFirsts {records records' : List OutputRecord}
    (h : List.Forall₂ SameFirsts records records') : SameStatistics records records' := by
  constructor
  · intro expertGroups
    refine foldl_eq_of_forall₂ (h.imp fun record record' hsame layerStats => ?_) ∅
    exact foldl_eq_of_forall₂
      (hsame.layers.imp fun _ _ hp s => addToken_of_first hp.1 hp.2 expertGroups s) layerStats
  · intro expertGroups n
    have hextract : ComputeExpertMetrics.extractExpertSequencesByRequest records' =
        ComputeExpertMetrics.extractExpertSequencesByRequest records := by
      rw [ComputeExpertMetrics.extractExpertSequencesByRequest,
        foldlM_eq_of_forall₂ (h.imp fun _ _ hsame => hsame.extractRecordByPrompt)]
      rfl
    rw [groupNgramsOf, hextract]
    rfl
  · intro n
    have hextract : NGramStatistics.extractExpertSequencesByRequest records' =
        NGramStatistics.extractExpertSequencesByRequest records :=
      foldl_eq_of_forall₂ (h.imp fun _ _ hsame => hsame.extractRecord) ∅
    rw [ngramsOf, hextract]
    rfl

/-! ## Permuting one layer -/

/-- The line with another layer under a key. -/
def setLayer (record : OutputRecord) (key : String) (d : LayerData) : OutputRecord :=
  { record with layers := record.layers.set key d }

/-- A layer contributes its first expert in its place. -/
theorem primaryExperts_setLayer {record : OutputRecord} {key : String} {l : ℤ} {d : LayerData}
    (hget : record.layers.get? key = some d) (hkey : pyInt key = some l) (d' : LayerData) :
    ∃ es es', primaryExperts record l = es ++ d.expertIds.head?.toList ++ es' ∧
      primaryExperts (setLayer record key d') l = es ++ d'.expertIds.head?.toList ++ es' := by
  obtain ⟨ps, ps', hentries, hset⟩ := PyDict.exists_entries_set hget d'
  refine ⟨ps.filterMap fun p => if pyInt p.1 = some l then p.2.expertIds.head? else none,
    ps'.filterMap fun p => if pyInt p.1 = some l then p.2.expertIds.head? else none, ?_, ?_⟩
  · rw [primaryExperts, hentries, List.filterMap_append, List.filterMap_cons, if_pos hkey,
      List.append_assoc]
    cases d.expertIds.head? <;> rfl
  · rw [primaryExperts, setLayer, hset, List.filterMap_append, List.filterMap_cons, if_pos hkey,
      List.append_assoc]
    cases d'.expertIds.head? <;> rfl

/-- A list of lines in which one layer has another first expert has another routing ratio, for the group
of the expert that was first. -/
theorem first_eq_of_routing {before after : List OutputRecord} {record : OutputRecord} {key : String}
    {l : ℤ} {d d' : LayerData} (hget : record.layers.get? key = some d) (hkey : pyInt key = some l)
    (hempty : d.expertIds = [] → d'.expertIds = [])
    (h : ∀ expertGroups, ComputeExpertMetrics.computeRoutingRatioSingleToken
        (before ++ setLayer record key d' :: after) expertGroups =
      ComputeExpertMetrics.computeRoutingRatioSingleToken (before ++ record :: after) expertGroups) :
    d'.expertIds.head? = d.expertIds.head? := by
  cases hids : d.expertIds with
  | nil => rw [hempty hids]
  | cons e es =>
    by_contra hne
    have hstats := congrArg (fun stats => (stats.getD l {}).groupTokens)
      (h ((∅ : PyDict ℤ (List ℤ)).set l [e]))
    obtain ⟨xs, xs', hold, hnew⟩ := primaryExperts_setLayer hget hkey d'
    have hcount : d'.expertIds.head?.toList.countP (· ∈ [e]) = 0 := by
      rw [List.countP_eq_zero]
      intro x hx
      simp only [Option.mem_toList] at hx
      simp only [List.mem_singleton, decide_eq_true_eq]
      rintro rfl
      exact hne hx
    have hone : ([e] : List ℤ).countP (· ∈ [e]) = 1 := by simp
    simp only [ComputeExpertMetrics.getD_computeRoutingRatioSingleToken, PyDict.getD_set, if_true,
      ComputeExpertMetrics.statsOf, ComputeExpertMetrics.allPrimaryExperts, List.flatMap_append,
      List.flatMap_cons, List.countP_append, hold, hnew, hids, List.head?_cons, Option.toList_some,
      hcount, hone] at hstats
    omega

theorem sameFirsts_setLayer {record : OutputRecord} {key : String} {d d' : LayerData}
    (hget : record.layers.get? key = some d) (hfirst : d'.expertIds.head? = d.expertIds.head?) :
    SameFirsts record (setLayer record key d') := by
  refine ⟨rfl, rfl, ?_⟩
  obtain ⟨ps, ps', hentries, hset⟩ := PyDict.exists_entries_set hget d'
  rw [setLayer, hset, hentries]
  refine List.rel_append (List.forall₂_same.mpr fun _ _ => ⟨rfl, rfl⟩) ?_
  exact .cons ⟨rfl, hfirst⟩ (List.forall₂_same.mpr fun _ _ => ⟨rfl, rfl⟩)

theorem LayerPermuted.expertIds_eq_nil {d d' : LayerData} (h : LayerPermuted d d')
    (hids : d.expertIds = []) : d'.expertIds = [] := by
  obtain ⟨order, horder, rfl⟩ := h
  rw [hids] at horder
  rw [LayerData.reorder, horder.eq_nil]
  rfl

/-- **The primary expert is the first one.** Permuting the slots of layers leaves the routing ratio, the
group n-grams and the self-loops as they are if every layer keeps its first expert. If the slots of one
layer are permuted, they stay the same for all groups and all `n` only in that case. -/
theorem statistics_of_first_experts :
    (∀ records records', List.Forall₂ SlotsPermuted records records' →
      List.Forall₂ FirstKept records records' → SameStatistics records records') ∧
    ∀ (before after : List OutputRecord) (record : OutputRecord) (key : String) (l : ℤ)
      (d d' : LayerData), record.layers.get? key = some d → pyInt key = some l → LayerPermuted d d' →
      (SameStatistics (before ++ record :: after) (before ++ setLayer record key d' :: after) ↔
        d'.expertIds.head? = d.expertIds.head?) := by
  constructor
  · intro records records' hperm hfirst
    refine sameStatistics_of_sameFirsts ?_
    induction hperm with
    | nil => exact .nil
    | cons hrecord _ ih =>
      cases hfirst with
      | cons hhead htail => exact .cons (hrecord.sameFirsts hhead) (ih htail)
  · intro before after record key l d d' hget hkey hperm
    constructor
    · intro h
      exact first_eq_of_routing hget hkey hperm.expertIds_eq_nil h.routing
    · intro hfirst
      have hrefl : ∀ record : OutputRecord, SameFirsts record record := fun _ =>
        ⟨rfl, rfl, List.forall₂_same.mpr fun _ _ => ⟨rfl, rfl⟩⟩
      refine sameStatistics_of_sameFirsts ?_
      refine List.rel_append (List.forall₂_same.mpr fun record _ => hrefl record) ?_
      exact .cons (sameFirsts_setLayer hget hfirst) (List.forall₂_same.mpr fun record _ => hrefl record)

/-- A line of request 0 with the given slots on layer 0. -/
def slotsLine (ids : List ℤ) (weights : List ℚ) : OutputRecord where
  layers := (∅ : PyDict String LayerData).set "0" { expertIds := ids, weights := weights.map some }
  requestId := some 0

/-- The last two slots change places, or the first two. -/
theorem statistics_of_first_experts_sample :
    SameStatistics [slotsLine [1, 3, 7] [1/2, 1/3, 1/6]] [slotsLine [1, 7, 3] [1/2, 1/6, 1/3]] ∧
    ¬SameStatistics [slotsLine [1, 3, 7] [1/2, 1/3, 1/6]] [slotsLine [3, 1, 7] [1/3, 1/2, 1/6]] := by
  constructor
  · refine statistics_of_first_experts.1 _ _ (.cons ⟨rfl, ?_⟩ .nil) (.cons ?_ .nil)
    · exact .cons ⟨rfl, [0, 2, 1], by decide, rfl⟩ .nil
    · exact .cons rfl .nil
  · intro h
    have hfirst := (statistics_of_first_experts.2 [] [] (slotsLine [1, 3, 7] [1/2, 1/3, 1/6]) "0" 0
      ⟨[1, 3, 7], [some (1/2), some (1/3), some (1/6)], none, none⟩
      ⟨[3, 1, 7], [some (1/3), some (1/2), some (1/6)], none, none⟩ rfl (by decide)
      ⟨[1, 0, 2], by decide, rfl⟩).mp h
    revert hfirst
    decide

/-- The expert is one of maximal recorded weight in the layer. -/
def HasMaximalWeight (d : LayerData) (e : ℤ) : Prop :=
  ∃ w, (e, some w) ∈ d.expertIds.zip d.weights ∧ ∀ w', some w' ∈ d.weights → w' ≤ w

/-- A layer whose first slot has the smaller weight: the main expert is not one of maximal weight, and
with the slots in the other order another expert is the main one. -/
theorem first_expert_not_maximal :
    primaryExperts (slotsLine [1, 3] [1/4, 3/4]) 0 = [1] ∧
    ¬HasMaximalWeight ⟨[1, 3], [some (1/4), some (3/4)], none, none⟩ 1 ∧
    SlotsPermuted (slotsLine [1, 3] [1/4, 3/4]) (slotsLine [3, 1] [3/4, 1/4]) ∧
    ¬SameStatistics [slotsLine [1, 3] [1/4, 3/4]] [slotsLine [3, 1] [3/4, 1/4]] := by
  refine ⟨by decide, ?_, ⟨rfl, .cons ⟨rfl, [1, 0], by decide, rfl⟩ .nil⟩, fun h => ?_⟩
  · rintro ⟨w, hslot, hmax⟩
    have hle := hmax (3/4) (by simp)
    have hw : w = 1/4 := by simpa using hslot
    rw [hw] at hle
    revert hle
    decide +kernel
  · have hrouting := h.routing ((∅ : PyDict ℤ (List ℤ)).set 0 [1])
    revert hrouting
    decide

end MoeSpecialization.Metrics
