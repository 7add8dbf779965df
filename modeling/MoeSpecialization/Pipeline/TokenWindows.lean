import MoeSpecialization.Metrics.RunLengths
import MoeSpecialization.Postprocess.Consistency
import MoeSpecialization.Postprocess.Partition

/-!
# The tokens behind an n-gram

Reference: `extract_expert_sequences_by_request`, `calculate_ngram_statistics` and
`calculate_group_ngram_statistics`, on the lines of `save_results_jsonl`.

A token whose experts on a layer are all filtered has no entry for that layer in its line, and the
extraction appends the tokens that have one. The window then slides over the token as if it were not
there: the n-grams of a request are windows of its tokens with data on the layer, and these are
consecutive tokens if and only if no token without data stands between two tokens with data
(`ngrams_consecutive_iff`).
-/

namespace MoeSpecialization.Pipeline

open Py Postprocess Metrics Windows

/-! ## Where the n-grams stem from -/

/-- The lines of a request that have an expert on layer `l`, in file order. -/
def dataLines (lines : List OutputRecord) (r l : ℕ) : List OutputRecord :=
  lines.filter fun line => line.requestId = some r ∧ primaryExperts line l ≠ []

/-- The first expert of a line on a layer. -/
def firstExpert (l : ℕ) (line : OutputRecord) : ℤ := (primaryExperts line l).headD 0

/-- The n-grams of a layer are, request by request, the first experts of the windows of its lines with
data on the layer. -/
def StemFrom (seqs : Sequences) (lines : List OutputRecord) (l n : ℕ) : Prop :=
  layerNgrams seqs n l = seqs.keys.flatMap fun r =>
    (windows n (dataLines lines r l)).map (List.map (firstExpert l))

/-- The second token index is the next one after the first. -/
def NextToken (i j : Option ℕ) : Prop := ∃ k, i = some k ∧ j = some (k + 1)

/-- Every window of lines that an n-gram stems from has consecutive token indices. -/
def WindowsConsecutive (lines : List OutputRecord) (l n : ℕ) : Prop :=
  ∀ r, ∀ w ∈ windows n (dataLines lines r l), (w.map (·.tokenIndex)).IsChain NextToken

/-- The aligned records of a request with a valid expert on layer `l`. -/
def dataRecords (aligned : List Record) (r l : ℕ) : List Record :=
  aligned.filter fun record => record.requestId = some r ∧ record.kept l ≠ []

/-- No token without data on the layer stands between two tokens of the request with data. -/
def NoGap (aligned : List Record) (r l : ℕ) : Prop :=
  ∀ a b c, [a, b, c].Sublist aligned → a.requestId = some r → c.requestId = some r →
    a.kept l ≠ [] → c.kept l ≠ [] → b.kept l ≠ []

/-! ## The lines of records -/

/-- A line has at most one first expert on a layer, that of the first slot that was kept. -/
theorem primaryExperts_convert {record : Record} {line : OutputRecord}
    (h : convertRecordToOutputFormat record = .ok line) (l : ℕ) :
    primaryExperts line l = ((record.kept l).map Prod.fst).head?.toList := by
  have hkeys : ∀ p ∈ line.layers.entries,
      (if pyInt p.1 = some (l : ℤ) then p.2.expertIds.head? else none) =
        if p.1 = toString l then p.2.expertIds.head? else none := by
    intro p hp
    obtain ⟨l', hkey, -⟩ := convertRecord_mem_entries h hp
    have hiff : pyInt p.1 = some (l : ℤ) ↔ p.1 = toString l := by
      rw [hkey, pyInt_toString, toString_inj, Option.some.injEq, Nat.cast_inj]
    simp only [hiff]
  rw [primaryExperts, List.filterMap_congr hkeys,
    PyDict.filterMap_entries_eq line.layers (toString l) fun d => d.expertIds.head?,
    ← (convertRecord_layer h l).1]
  cases line.layers.get? (toString l) <;> rfl

theorem primaryExperts_eq_nil_iff {record : Record} {line : OutputRecord}
    (h : convertRecordToOutputFormat record = .ok line) (l : ℕ) :
    primaryExperts line l = [] ↔ record.kept l = [] := by
  rw [primaryExperts_convert h]
  cases record.kept l <;> simp

/-- The tokens of the lines with data are those of the records with data. -/
theorem map_tokenIndex_dataLines {aligned : List Record} {lines : List OutputRecord}
    (h : aligned.mapM convertRecordToOutputFormat = .ok lines) (r l : ℕ) :
    (dataLines lines r l).map (·.tokenIndex) = (dataRecords aligned r l).map (·.tokenIndex) := by
  induction aligned generalizing lines with
  | nil =>
    cases h
    rfl
  | cons record aligned ih =>
    rw [List.mapM_cons] at h
    obtain ⟨line, hline, h⟩ := except_bind_eq_ok.mp h
    obtain ⟨rest, hrest, h⟩ := except_bind_eq_ok.mp h
    cases h
    have ih := ih hrest
    obtain ⟨-, -, hid, hindex⟩ := convertRecord_entries hline
    rw [dataLines, dataRecords] at ih ⊢
    simp only [List.filter_cons, hid, ne_eq, primaryExperts_eq_nil_iff hline]
    simp only [ne_eq] at ih
    split
    · rw [List.map_cons, List.map_cons, ih, hindex]
    · exact ih

theorem length_dataLines {aligned : List Record} {lines : List OutputRecord}
    (h : aligned.mapM convertRecordToOutputFormat = .ok lines) (r l : ℕ) :
    (dataLines lines r l).length = (dataRecords aligned r l).length := by
  have hmap := congrArg List.length (map_tokenIndex_dataLines h r l)
  rwa [List.length_map, List.length_map] at hmap

/-- The sequence of a request on a layer, line by line. -/
theorem seq_eq_map_firstExpert {aligned : List Record} {lines : List OutputRecord}
    (h : aligned.mapM convertRecordToOutputFormat = .ok lines) (r l : ℕ) :
    (NGramStatistics.extractExpertSequencesByRequest lines).seq r l =
      (dataLines lines r l).map (firstExpert l) := by
  rw [seq_extractExpertSequences, dataLines]
  have hline : ∀ line ∈ lines, primaryExperts line l =
      if primaryExperts line l ≠ [] then [firstExpert l line] else [] := by
    intro line hmem
    obtain ⟨record, -, hrecord⟩ := mem_of_mapM_eq_ok h line hmem
    rw [firstExpert, primaryExperts_convert hrecord]
    cases ((record.kept l).map Prod.fst).head? <;> rfl
  clear h
  induction lines with
  | nil => rfl
  | cons line lines ih =>
    have ih := ih fun line' hmem => hline line' (List.mem_cons_of_mem line hmem)
    have hhead := hline line List.mem_cons_self
    by_cases hr : line.requestId = some r
    · by_cases hdata : primaryExperts line l = []
      · simpa [hr, hdata] using ih
      · rw [if_pos hdata] at hhead
        simp [hr, ih, hhead]
    · simpa [hr] using ih

/-- What `calculate_ngram_statistics` counts are the windows of the lines with data. -/
theorem stemFrom_extract {aligned : List Record} {lines : List OutputRecord}
    (h : aligned.mapM convertRecordToOutputFormat = .ok lines) (l : ℕ) {n : ℕ} (hn : 1 ≤ n) :
    StemFrom (NGramStatistics.extractExpertSequencesByRequest lines) lines l n := by
  have hseq := fun r => seq_eq_map_firstExpert h r l
  generalize NGramStatistics.extractExpertSequencesByRequest lines = seqs at hseq
  rw [StemFrom, layerNgrams, PyDict.values, PyDict.keys, List.flatMap_map, List.flatMap_map]
  refine List.flatMap_congr fun p hp => ?_
  have hget : seqs.get? p.1 = some p.2 := PyDict.get?_eq_some_iff.mpr hp
  have hseq := hseq p.1
  rw [Sequences.seq, PyDict.getD_eq_of_get?_eq_some hget] at hseq
  rw [hseq, ngrams_eq_windows hn, windows_map]

/-! ## When the windows are consecutive -/

/-- The windows of the lines are consecutive exactly if the records with data are. -/
theorem windowsConsecutive_iff {aligned : List Record} {lines : List OutputRecord}
    (h : aligned.mapM convertRecordToOutputFormat = .ok lines) (l : ℕ) {n : ℕ} (hn : 1 ≤ n) :
    WindowsConsecutive lines l n ↔ n = 1 ∨ ∀ r, (dataRecords aligned r l).length < n ∨
      ((dataRecords aligned r l).map (·.tokenIndex)).IsChain NextToken := by
  rw [← forall_or_left]
  refine forall_congr' fun r => ?_
  rw [← length_dataLines h, ← map_tokenIndex_dataLines h]
  simp only [List.isChain_map]
  exact forall_windows_isChain_iff hn _

section Aligned

variable {info : TokenInfo} {tokenizer : Option Tokenizer} {records : List Record} {start : ℕ}

theorem tokenIndex_alignStreaming {i : ℕ} {record : Record}
    (h : (alignTokensWithExpertsStreaming info tokenizer records start)[i]? = some record) :
    record.tokenIndex = some (start + i) ∧ start + i < info.allTokenIds.length ∧
      record.requestId = requestOf info.requestBoundaries (start + i) := by
  rw [getElem?_alignStreaming] at h
  obtain ⟨tokenId, htoken, h⟩ := Option.bind_eq_some_iff.mp h
  obtain ⟨old, -, rfl⟩ := Option.map_eq_some_iff.mp h
  exact ⟨rfl, (List.getElem?_eq_some_iff.mp htoken).1, rfl⟩

/-- The number of the token of an aligned record. -/
def tokenNumber (record : Record) : ℕ := record.tokenIndex.getD 0

theorem isChain_alignStreaming :
    (alignTokensWithExpertsStreaming info tokenizer records start).IsChain
      fun a b => tokenNumber b = tokenNumber a + 1 := by
  rw [List.isChain_iff_getElem]
  intro i hi
  have hfirst := (tokenIndex_alignStreaming (List.getElem?_eq_getElem (Nat.lt_of_succ_lt hi))).1
  have hsecond := (tokenIndex_alignStreaming (List.getElem?_eq_getElem hi)).1
  rw [tokenNumber, tokenNumber, hfirst, hsecond]
  rfl

/-- On aligned records the next token is the one with the next number. -/
theorem isChain_nextToken_iff {part : List Record}
    (hsub : ∀ record ∈ part, record ∈ alignTokensWithExpertsStreaming info tokenizer records start) :
    (part.map (·.tokenIndex)).IsChain NextToken ↔
      part.IsChain fun a b => tokenNumber b = tokenNumber a + 1 := by
  have hindex : ∀ record ∈ part, record.tokenIndex = some (tokenNumber record) := by
    intro record hrecord
    obtain ⟨i, hi⟩ := List.mem_iff_getElem?.mp (hsub record hrecord)
    rw [tokenNumber, (tokenIndex_alignStreaming hi).1]
    rfl
  rw [List.isChain_map, List.isChain_iff_getElem, List.isChain_iff_getElem]
  refine forall_congr' fun i => forall_congr' fun hi => ?_
  rw [hindex _ (List.getElem_mem _), hindex _ (List.getElem_mem _)]
  constructor
  · rintro ⟨k, hk, hk'⟩
    cases hk
    exact Option.some.inj hk'
  · intro hnext
    exact ⟨_, rfl, congrArg some hnext⟩

theorem mem_alignStreaming {record : Record}
    (h : record ∈ alignTokensWithExpertsStreaming info tokenizer records start) :
    tokenNumber record < info.allTokenIds.length ∧
      record.requestId = requestOf info.requestBoundaries (tokenNumber record) := by
  obtain ⟨i, hi⟩ := List.mem_iff_getElem?.mp h
  obtain ⟨hindex, hlt, hid⟩ := tokenIndex_alignStreaming hi
  rw [tokenNumber, hindex]
  exact ⟨hlt, hid⟩

/-- A token between two tokens of a request is of that request. -/
theorem requestOf_between {inferenceResults : List InferenceResult} {numRequests : Option ℤ}
    (hinfo : prepareTokenInfo inferenceResults numRequests = .ok info) {i j k r : ℕ} (hij : i ≤ j)
    (hjk : j ≤ k) (hk : k < info.allTokenIds.length)
    (hi : requestOf info.requestBoundaries i = some r)
    (hkr : requestOf info.requestBoundaries k = some r) :
    requestOf info.requestBoundaries j = some r := by
  obtain ⟨r', hr'⟩ := Option.isSome_iff_exists.mp (requestOf_isSome hinfo (hjk.trans_lt hk))
  rw [(prepareTokenInfo_eq hinfo).2] at hi hkr hr' ⊢
  obtain ⟨result, m, hget, hm, hival⟩ := requestOf_boundariesFrom hi
  obtain ⟨result₂, m₂, hget₂, hm₂, hkval⟩ := requestOf_boundariesFrom hkr
  obtain ⟨result', m', hget', hm', hjval⟩ := requestOf_boundariesFrom hr'
  rw [Nat.zero_add, ← tokensBefore] at hival hkval hjval
  cases Option.some.inj (hget.symm.trans hget₂)
  have hsame : r' = r := owner_unique (i := j) (boundary_of_getElem? hget)
    ⟨by dsimp only; omega, by dsimp only; omega⟩ (boundary_of_getElem? hget')
    ⟨by dsimp only; omega, by dsimp only; omega⟩
  rw [hr', hsame]

/-- Between two records of a request there are only records of it. -/
theorem requestId_between {inferenceResults : List InferenceResult} {numRequests : Option ℤ}
    (hinfo : prepareTokenInfo inferenceResults numRequests = .ok info) {a b c : Record} {r : ℕ}
    (hsub : [a, b, c].Sublist (alignTokensWithExpertsStreaming info tokenizer records start))
    (ha : a.requestId = some r) (hc : c.requestId = some r) : b.requestId = some r := by
  have hchain : [a, b, c].Pairwise fun x y => tokenNumber x < tokenNumber y :=
    (pairwise_of_isChain_succ isChain_alignStreaming).sublist hsub
  simp only [List.pairwise_cons, List.mem_cons, List.not_mem_nil, or_false, forall_eq_or_imp,
    forall_eq] at hchain
  obtain ⟨-, hida⟩ := mem_alignStreaming (hsub.subset (by simp : a ∈ [a, b, c]))
  obtain ⟨-, hidb⟩ := mem_alignStreaming (hsub.subset (by simp : b ∈ [a, b, c]))
  obtain ⟨hlt, hidc⟩ := mem_alignStreaming (hsub.subset (by simp : c ∈ [a, b, c]))
  rw [hidb]
  exact requestOf_between hinfo hchain.1.1.le hchain.2.1.le hlt (hida ▸ ha) (hidc ▸ hc)

/-- The records of a request with data are consecutive tokens exactly if there is no gap. -/
theorem isChain_dataRecords_iff {inferenceResults : List InferenceResult} {numRequests : Option ℤ}
    (hinfo : prepareTokenInfo inferenceResults numRequests = .ok info) (r l : ℕ) :
    ((dataRecords (alignTokensWithExpertsStreaming info tokenizer records start) r l).map
        (·.tokenIndex)).IsChain NextToken ↔
      NoGap (alignTokensWithExpertsStreaming info tokenizer records start) r l := by
  rw [dataRecords, isChain_nextToken_iff fun record hrecord => List.mem_of_mem_filter hrecord,
    isChain_filter_iff isChain_alignStreaming]
  simp only [decide_eq_true_eq]
  constructor
  · intro h a b c hsub ha hc hdata hdata'
    exact (h a b c hsub ⟨ha, hdata⟩ ⟨hc, hdata'⟩).2
  · rintro h a b c hsub ⟨ha, hdata⟩ ⟨hc, hdata'⟩
    exact ⟨requestId_between hinfo hsub ha hc, h a b c hsub ha hc hdata hdata'⟩

end Aligned

/-- **n-grams of consecutive tokens.** The n-grams that both functions count on a layer are the windows of
the lines with data on it, request by request. All of these windows have consecutive token indices if and
only if `n = 1` or, for every request with at least `n` records with data, the token index of each such
record is followed by the next one. For records that one alignment has numbered this is the case if and
only if no token without data stands between two tokens of the request with data. -/
theorem ngrams_consecutive_iff {aligned : List Record} {lines : List OutputRecord}
    (hid : ∀ record ∈ aligned, record.requestId.isSome)
    (hlines : aligned.mapM convertRecordToOutputFormat = .ok lines) (l n : ℕ) (hn : 1 ≤ n) :
    (ComputeExpertMetrics.extractExpertSequencesByRequest lines =
        .ok (NGramStatistics.extractExpertSequencesByRequest lines) ∧
      StemFrom (NGramStatistics.extractExpertSequencesByRequest lines) lines l n) ∧
    (WindowsConsecutive lines l n ↔ n = 1 ∨ ∀ r, (dataRecords aligned r l).length < n ∨
      ((dataRecords aligned r l).map (·.tokenIndex)).IsChain NextToken) ∧
    ∀ (inferenceResults : List InferenceResult) (numRequests : Option ℤ) (info : TokenInfo)
      (tokenizer : Option Tokenizer) (records : List Record) (start : ℕ),
      prepareTokenInfo inferenceResults numRequests = .ok info →
      aligned = alignTokensWithExpertsStreaming info tokenizer records start →
      (WindowsConsecutive lines l n ↔ n = 1 ∨ ∀ r, (dataRecords aligned r l).length < n ∨
        NoGap aligned r l) := by
  have hiff := windowsConsecutive_iff hlines l hn
  refine ⟨⟨extractExpertSequences_eq fun line hline => ?_, stemFrom_extract hlines l hn⟩, hiff, ?_⟩
  · obtain ⟨record, hrecord, hconvert⟩ := mem_of_mapM_eq_ok hlines line hline
    rw [(convertRecord_entries hconvert).2.2.1]
    exact hid record hrecord
  · intro inferenceResults numRequests info tokenizer records start hinfo haligned
    subst haligned
    rw [hiff]
    simp only [isChain_dataRecords_iff hinfo]

/-- Three tokens of one request. -/
def threeTokens : List InferenceResult := [{ requestId := 0, tokenIds := [5, 7, 9] }]

/-- A record with one slot on layer 0. -/
def oneSlot (e : ℤ) : Record :=
  { topkIdsOfLayer := [[some [some e]]], topkWeightsOfLayer := [[some [some 1]]] }

/-- The records of three passes, aligned with `threeTokens`. -/
def threeAligned (e₀ e₁ e₂ : ℤ) : List Record :=
  alignTokensWithExpertsStreaming ⟨[5, 7, 9], [(0, 3)], [.str []]⟩ none
    [oneSlot e₀, oneSlot e₁, oneSlot e₂] 0

/-- Data on every token. -/
theorem ngrams_consecutive_iff_sample :
    ∃ lines, (threeAligned 1 2 3).mapM convertRecordToOutputFormat = .ok lines ∧
      WindowsConsecutive lines 0 2 := by
  obtain ⟨lines, hlines⟩ : ∃ lines,
      (threeAligned 1 2 3).mapM convertRecordToOutputFormat = .ok lines := ⟨_, rfl⟩
  have hid : ∀ record ∈ threeAligned 1 2 3, record.requestId.isSome := by decide
  refine ⟨lines, hlines, ((ngrams_consecutive_iff hid hlines 0 2 (by decide)).2.2 threeTokens none
    ⟨[5, 7, 9], [(0, 3)], [.str []]⟩ none [oneSlot 1, oneSlot 2, oneSlot 3] 0 rfl
    rfl).mpr (.inr fun r => .inr ?_)⟩
  intro a b c hsub ha hc hdata hdata'
  have hall : ∀ record ∈ threeAligned 1 2 3, record.kept 0 ≠ [] := by decide
  exact hall b (hsub.subset (by simp))

/-- The experts of the middle token are all filtered: the 2-gram of its neighbours is counted. -/
theorem ngram_bridges_token :
    ∃ lines, (threeAligned 1 (-1) 3).mapM convertRecordToOutputFormat = .ok lines ∧
      layerNgrams (NGramStatistics.extractExpertSequencesByRequest lines) 2 0 = [[1, 3]] ∧
      ¬WindowsConsecutive lines 0 2 := by
  obtain ⟨lines, hlines⟩ : ∃ lines,
      (threeAligned 1 (-1) 3).mapM convertRecordToOutputFormat = .ok lines := ⟨_, rfl⟩
  refine ⟨lines, hlines, ?_, fun h => ?_⟩
  · cases hlines
    decide
  · cases hlines
    have hchain := h 0 _ List.mem_cons_self
    obtain ⟨⟨k, hk, hk'⟩, -⟩ := List.isChain_cons_cons.mp hchain
    cases hk
    cases hk'

end MoeSpecialization.Pipeline
