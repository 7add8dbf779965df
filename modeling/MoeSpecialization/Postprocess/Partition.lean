import MoeSpecialization.Postprocess.Align
import Mathlib.Data.List.GetD

/-!
# Alignment as a partition of the tokens

Reference: `prepare_token_info` and `align_tokens_with_experts`.

The boundaries of the requests cut the token list into contiguous pieces, one for each request. The
piece of a request without tokens is empty and coincides with an end of its neighbours' pieces; since
the ranges are half open, such a request still owns no token, and every token has one owner.

The second half models the objects behind the record list: `records[i].copy()` makes a new dictionary
and the key assignments that follow write to it. `alignTokensWithExpertsInPlace_eq` says that what the
loop leaves behind is the input with the aligned records of `alignTokensWithExperts` after it.
-/

namespace MoeSpecialization.Postprocess

open Py

/-! ## The ranges of the requests -/

/-- The number of tokens before request `r`. -/
def tokensBefore (results : List InferenceResult) (r : ℕ) : ℕ :=
  ((results.take r).flatMap (·.tokenIds)).length

theorem tokensBefore_succ {results : List InferenceResult} {r : ℕ} {result : InferenceResult}
    (h : results[r]? = some result) :
    tokensBefore results (r + 1) = tokensBefore results r + result.tokenIds.length := by
  rw [tokensBefore, tokensBefore, List.take_add_one, h, List.flatMap_append, List.length_append]
  simp

theorem tokensBefore_mono (results : List InferenceResult) {r r' : ℕ} (h : r ≤ r') :
    tokensBefore results r ≤ tokensBefore results r' := by
  rw [tokensBefore, tokensBefore, ← Nat.min_eq_left h, ← List.take_take]
  exact ((List.take_prefix r (results.take r')).flatMap _).length_le

/-- Request `r` starts where the tokens of the earlier requests end. -/
theorem getElem?_boundariesFrom (results : List InferenceResult) (start r : ℕ) :
    (boundariesFrom start results)[r]? = (results[r]?).map fun result =>
      (start + tokensBefore results r,
        start + tokensBefore results r + result.tokenIds.length) := by
  induction results generalizing start r with
  | nil => rfl
  | cons result results ih =>
    cases r with
    | zero => simp [boundariesFrom, tokensBefore]
    | succ r =>
      simp only [boundariesFrom, List.getElem?_cons_succ, ih, tokensBefore, List.take_succ_cons,
        List.flatMap_cons, List.length_append, Nat.add_assoc]

/-- The range of a request starts behind the tokens of the requests before it. -/
theorem boundary_of_getElem? {results : List InferenceResult} {r : ℕ} {result : InferenceResult}
    (h : results[r]? = some result) : (boundariesFrom 0 results)[r]? =
      some (tokensBefore results r, tokensBefore results r + result.tokenIds.length) := by
  rw [getElem?_boundariesFrom, h, Nat.zero_add]
  rfl

theorem length_boundariesFrom (results : List InferenceResult) (start : ℕ) :
    (boundariesFrom start results).length = results.length := by
  induction results generalizing start with
  | nil => rfl
  | cons result results ih => simp [boundariesFrom, ih]

/-- The tokens from the start of request `r` up to its end are its own. -/
theorem slice_flatMap_tokenIds {results : List InferenceResult} {r : ℕ} {result : InferenceResult}
    (h : results[r]? = some result) :
    ((results.flatMap (·.tokenIds)).drop (tokensBefore results r)).take result.tokenIds.length =
      result.tokenIds := by
  obtain ⟨hr, hget⟩ := List.getElem?_eq_some_iff.mp h
  have hsplit : results = results.take r ++ result :: results.drop (r + 1) := by
    rw [← hget, ← List.drop_eq_getElem_cons hr, List.take_append_drop]
  have htokens : results.flatMap (·.tokenIds) =
      (results.take r).flatMap (·.tokenIds) ++
        (result.tokenIds ++ (results.drop (r + 1)).flatMap (·.tokenIds)) := by
    rw [← List.flatMap_cons, ← List.flatMap_append, ← hsplit]
  rw [htokens, tokensBefore, List.drop_left, List.take_left]

/-- The boundaries cut the token list into the token lists of the requests. -/
structure TokenInfo.Partition (info : TokenInfo) (requests : List InferenceResult) : Prop where
  length_eq : info.requestBoundaries.length = requests.length
  start_eq : (info.requestBoundaries.head?.elim 0 fun b => b.1) = 0
  contiguous : ∀ (r : ℕ) (b b' : ℕ × ℕ), info.requestBoundaries[r]? = some b →
    info.requestBoundaries[r + 1]? = some b' → b'.1 = b.2
  stop_eq : (info.requestBoundaries.getLast?.elim 0 fun b => b.2) = info.allTokenIds.length
  slice_eq : ∀ (r : ℕ) (result : InferenceResult) (b : ℕ × ℕ), requests[r]? = some result →
    info.requestBoundaries[r]? = some b →
      b.1 ≤ b.2 ∧ (info.allTokenIds.drop b.1).take (b.2 - b.1) = result.tokenIds

theorem partition_boundariesFrom (requests : List InferenceResult) (prompts : List Json) :
    TokenInfo.Partition ⟨requests.flatMap (·.tokenIds), boundariesFrom 0 requests, prompts⟩
      requests where
  length_eq := length_boundariesFrom requests 0
  start_eq := by
    cases requests with
    | nil => rfl
    | cons result results => rfl
  contiguous r b b' hb hb' := by
    rw [getElem?_boundariesFrom, Option.map_eq_some_iff] at hb hb'
    obtain ⟨result, hr, rfl⟩ := hb
    obtain ⟨result', -, rfl⟩ := hb'
    show 0 + tokensBefore requests (r + 1) = 0 + tokensBefore requests r + result.tokenIds.length
    rw [tokensBefore_succ hr, Nat.add_assoc]
  stop_eq := by
    dsimp only
    rw [List.getLast?_eq_getElem?, getElem?_boundariesFrom, length_boundariesFrom]
    cases hlast : requests[requests.length - 1]? with
    | none =>
      rw [List.getElem?_eq_none_iff] at hlast
      have hnil : requests = [] := List.length_eq_zero_iff.mp (by omega)
      subst hnil
      rfl
    | some result =>
      have hlt := (List.getElem?_eq_some_iff.mp hlast).1
      show 0 + tokensBefore requests (requests.length - 1) + result.tokenIds.length = _
      rw [Nat.zero_add, ← tokensBefore_succ hlast, tokensBefore,
        List.take_of_length_le (by omega)]
  slice_eq r result b hr hb := by
    rw [getElem?_boundariesFrom, hr] at hb
    cases hb
    refine ⟨by dsimp only; omega, ?_⟩
    dsimp only
    rw [Nat.zero_add, Nat.add_sub_cancel_left]
    exact slice_flatMap_tokenIds hr

/-- Two requests whose ranges hold the same token are one request. -/
theorem owner_unique {results : List InferenceResult} {r r' i : ℕ} {b b' : ℕ × ℕ}
    (hb : (boundariesFrom 0 results)[r]? = some b) (hi : b.1 ≤ i ∧ i < b.2)
    (hb' : (boundariesFrom 0 results)[r']? = some b') (hi' : b'.1 ≤ i ∧ i < b'.2) : r' = r := by
  rw [getElem?_boundariesFrom, Option.map_eq_some_iff] at hb hb'
  obtain ⟨result, hr, rfl⟩ := hb
  obtain ⟨result', hr', rfl⟩ := hb'
  dsimp only at hi hi'
  -- a later request starts at the end of an earlier one or behind it
  rcases Nat.lt_trichotomy r r' with hlt | heq | hgt
  · have := tokensBefore_mono results (Nat.succ_le_of_lt hlt)
    rw [Nat.succ_eq_add_one, tokensBefore_succ hr] at this
    omega
  · exact heq.symm
  · have := tokensBefore_mono results (Nat.succ_le_of_lt hgt)
    rw [Nat.succ_eq_add_one, tokensBefore_succ hr'] at this
    omega

/-- The owner of a token, its prompt and the token's place in its list. -/
theorem exists_owner {requests : List InferenceResult} {prompts : List Json}
    (hprompts : requests.mapM requestPrompt = .ok prompts) {i : ℕ}
    (hi : i < (requests.flatMap (·.tokenIds)).length) :
    ∃ r result prompt tokenId, requests[r]? = some result ∧
      requestOf (boundariesFrom 0 requests) i = some r ∧
      tokensBefore requests r ≤ i ∧ i < tokensBefore requests r + result.tokenIds.length ∧
      extractPromptFromOriginalData result.originalData = .ok prompt ∧
      prompts[r]? = some prompt ∧
      result.tokenIds[i - tokensBefore requests r]? = some tokenId ∧
      (requests.flatMap (·.tokenIds))[i]? = some tokenId := by
  have hsome : (requestOf (boundariesFrom 0 requests) i).isSome :=
    requestOf_boundariesFrom_isSome (Nat.zero_le i) (by omega)
  obtain ⟨r, hr⟩ := Option.isSome_iff_exists.mp hsome
  obtain ⟨result, j, hget, hj, hij⟩ := requestOf_boundariesFrom hr
  rw [Nat.zero_add, ← tokensBefore] at hij
  obtain ⟨prompt, hprompt, hprompt'⟩ := getElem?_of_mapM_eq_ok hprompts hget
  rw [requestPrompt, if_neg (List.ne_nil_of_length_pos (by omega))] at hprompt
  have hslice := congrArg (·[j]?) (slice_flatMap_tokenIds hget)
  simp only [List.getElem?_take_of_lt hj, List.getElem?_drop, ← hij] at hslice
  refine ⟨r, result, prompt, result.tokenIds[j], hget, hr, by omega, by omega, hprompt, hprompt', ?_,
    ?_⟩
  · rw [hij, Nat.add_sub_cancel_left, List.getElem?_eq_getElem hj]
  · rw [hslice, List.getElem?_eq_getElem hj]

/-! ## The dictionaries behind the record list -/

/-- The dictionaries that exist, by reference. -/
abbrev Heap := List Record

/-- `records[i].copy()`: a new dictionary with the same keys, and the reference to it. -/
def Heap.copy (heap : Heap) (ref : ℕ) : Heap × ℕ := (heap ++ [heap.getD ref {}], heap.length)

/-- One iteration of the loop of `align_tokens_with_experts`: copy the record, then assign the keys of
the token. The record list and the list of aligned records hold references. -/
def alignInPlaceStep (info : TokenInfo) (tokenizer : Option Tokenizer) (records : List ℕ)
    (s : Heap × List ℕ) (i : ℕ) : Heap × List ℕ :=
  let tokenId := info.allTokenIds.getD i 0
  let (heap, record) := Heap.copy s.1 (records.getD i 0)
  let heap := heap.modify record fun d => { d with outputTokenId := some tokenId }
  let heap := heap.modify record fun d => { d with outputToken := decodeToken tokenizer tokenId }
  let requestIdx := requestOf info.requestBoundaries i
  let prompt := requestIdx.elim (.str []) fun r => info.requestPrompts.getD r (.str [])
  let heap := heap.modify record fun d => { d with prompt := some prompt }
  let heap := heap.modify record fun d => { d with requestId := requestIdx }
  let heap := heap.modify record fun d => { d with tokenIndex := some i }
  (heap, s.2 ++ [record])

/-- `align_tokens_with_experts` with the dictionaries it reads and writes. -/
def alignTokensWithExpertsInPlace (inferenceResults : List InferenceResult) (heap : Heap)
    (records : List ℕ) (tokenizer : Option Tokenizer) (numRequests : Option ℤ) :
    Except Error (Heap × List ℕ) := do
  let info ← prepareTokenInfo inferenceResults numRequests
  let matchCount := min info.allTokenIds.length records.length
  .ok ((List.range matchCount).foldl (alignInPlaceStep info tokenizer records) (heap, []))

section InPlace

variable (info : TokenInfo) (tokenizer : Option Tokenizer)

/-- Writing to the newest dictionary leaves the others alone. -/
theorem modify_concat {α : Type*} (xs : List α) (x : α) (f : α → α) :
    (xs ++ [x]).modify xs.length f = xs ++ [f x] := by
  induction xs with
  | nil => rfl
  | cons y ys ih => simp [ih]

/-- One iteration leaves what exists as it is and appends one aligned record. -/
theorem alignInPlaceStep_eq (records : List ℕ) (s : Heap × List ℕ) (i : ℕ) :
    alignInPlaceStep info tokenizer records s i =
      (s.1 ++ [alignRecord info tokenizer i (info.allTokenIds.getD i 0)
        (s.1.getD (records.getD i 0) {})], s.2 ++ [s.1.length]) := by
  simp only [alignInPlaceStep, Heap.copy, modify_concat]
  rfl

theorem foldl_alignInPlaceStep {heap : Heap} {records : List ℕ}
    (hrefs : ∀ ref ∈ records, ref < heap.length) {k : ℕ} (hk : k ≤ records.length) :
    (List.range k).foldl (alignInPlaceStep info tokenizer records) (heap, []) =
      (heap ++ (List.range k).map fun i =>
        alignRecord info tokenizer i (info.allTokenIds.getD i 0) (heap.getD (records.getD i 0) {}),
        (List.range k).map (heap.length + ·)) := by
  induction k with
  | zero => simp
  | succ k ih =>
    have hlt : records.getD k 0 < heap.length := by
      rw [List.getD_eq_getElem records 0 (by omega)]
      exact hrefs _ (List.getElem_mem _)
    rw [List.range_succ, List.foldl_append, ih (by omega), List.foldl_cons, List.foldl_nil,
      alignInPlaceStep_eq]
    -- the reference was valid before the loop, so it is not one of the new records
    rw [List.getD_append _ _ _ _ hlt]
    simp

end InPlace

/-- What the loop leaves behind: the input as it was, then the aligned records. -/
theorem alignTokensWithExpertsInPlace_eq {heap : Heap} {records : List ℕ}
    (hrefs : ∀ ref ∈ records, ref < heap.length) (inferenceResults : List InferenceResult)
    (tokenizer : Option Tokenizer) (numRequests : Option ℤ) :
    alignTokensWithExpertsInPlace inferenceResults heap records tokenizer numRequests =
      (alignTokensWithExperts inferenceResults { records := records.map fun ref => heap.getD ref {} }
        tokenizer numRequests).map fun aligned =>
          (heap ++ aligned, (List.range aligned.length).map (heap.length + ·)) := by
  rw [alignTokensWithExpertsInPlace, alignTokensWithExperts]
  cases prepareTokenInfo inferenceResults numRequests with
  | error e => rfl
  | ok info =>
    show Except.ok _ = Except.ok _
    rw [foldl_alignInPlaceStep info tokenizer hrefs (Nat.min_le_right _ _)]
    refine congrArg Except.ok (Prod.ext (congrArg (heap ++ ·) ?_) ?_)
    · refine List.ext_getElem (by simp) fun i hi _ => ?_
      simp only [List.length_map, List.length_range] at hi
      rw [List.getElem_map, List.getElem_map, List.getElem_range, List.getElem_finRange,
        List.getD_eq_getElem info.allTokenIds 0 (by omega),
        List.getD_eq_getElem records 0 (by omega)]
      simp
    · simp

/-- `entry` is the copy of `record` for token `i`: the keys that are added name the one request whose
range holds `i`, its prompt, and the token at the place of `i` in that request. -/
def AlignedTo (info : TokenInfo) (requests : List InferenceResult) (tokenizer : Option Tokenizer)
    (i : ℕ) (record entry : Record) : Prop :=
  ∃ r result b prompt tokenId,
    (requests[r]? = some result ∧ info.requestBoundaries[r]? = some b ∧ b.1 ≤ i ∧ i < b.2) ∧
    (∀ (r' : ℕ) (b' : ℕ × ℕ), info.requestBoundaries[r']? = some b' → b'.1 ≤ i ∧ i < b'.2 → r' = r) ∧
    extractPromptFromOriginalData result.originalData = .ok prompt ∧
    result.tokenIds[i - b.1]? = some tokenId ∧
    entry = { record with
      outputTokenId := some tokenId
      outputToken := decodeToken tokenizer tokenId
      prompt := some prompt
      requestId := some r
      tokenIndex := some i }

theorem alignedTo_alignRecord {requests : List InferenceResult} {prompts : List Json}
    (hprompts : requests.mapM requestPrompt = .ok prompts) (tokenizer : Option Tokenizer) {i : ℕ}
    {tokenId : ℤ} (hi : (requests.flatMap (·.tokenIds))[i]? = some tokenId) (record : Record) :
    let info : TokenInfo := ⟨requests.flatMap (·.tokenIds), boundariesFrom 0 requests, prompts⟩
    AlignedTo info requests tokenizer i record (alignRecord info tokenizer i tokenId record) := by
  intro info
  obtain ⟨r, result, prompt, tokenId', hr, howner, hstart, hstop, hprompt, hprompt', htoken, htoken'⟩ :=
    exists_owner hprompts (List.getElem?_eq_some_iff.mp hi).1
  obtain rfl : tokenId = tokenId' := Option.some.inj (hi.symm.trans htoken')
  have hbound := boundary_of_getElem? hr
  refine ⟨r, result, _, prompt, tokenId, ⟨hr, hbound, hstart, hstop⟩, ?_, hprompt, htoken, ?_⟩
  · intro r' b' hb' hi'
    exact owner_unique hbound ⟨hstart, hstop⟩ hb' hi'
  · have hget : prompts.getD r (.str []) = prompt := by
      rw [List.getD_eq_getElem?_getD, hprompt']
      rfl
    simp only [alignRecord, info, howner, Option.elim_some, hget]

theorem getElem?_alignTokensWithExperts (expertData : ExpertData) (tokenizer : Option Tokenizer)
    {inferenceResults : List InferenceResult} {numRequests : Option ℤ} {info : TokenInfo}
    (hinfo : prepareTokenInfo inferenceResults numRequests = .ok info) :
    ∃ aligned, alignTokensWithExperts inferenceResults expertData tokenizer numRequests = .ok aligned ∧
      aligned.length = min info.allTokenIds.length expertData.records.length ∧
      ∀ (i : ℕ) (entry : Record), aligned[i]? = some entry → ∃ record tokenId,
        expertData.records[i]? = some record ∧ info.allTokenIds[i]? = some tokenId ∧
        entry = alignRecord info tokenizer i tokenId record := by
  refine ⟨alignTokensWithExpertsStreaming info tokenizer expertData.records 0, ?_, ?_, ?_⟩
  · rw [alignTokensWithExperts_eq_streaming, hinfo]
    rfl
  · rw [length_alignStreaming, Nat.sub_zero]
  · intro i entry hentry
    rw [getElem?_alignStreaming, Nat.zero_add, Option.bind_eq_some_iff] at hentry
    obtain ⟨tokenId, htoken, hentry⟩ := hentry
    obtain ⟨record, hrecord, rfl⟩ := Option.map_eq_some_iff.mp hentry
    exact ⟨record, tokenId, hrecord, htoken, rfl⟩

theorem exists_prepareTokenInfo_iff (inferenceResults : List InferenceResult) (numRequests : Option ℤ) :
    (∃ info, prepareTokenInfo inferenceResults numRequests = .ok info) ↔
      ∀ result ∈ selectRequests inferenceResults numRequests, result.tokenIds ≠ [] →
        ∃ prompt, extractPromptFromOriginalData result.originalData = .ok prompt := by
  rw [prepareTokenInfo_eq_map]
  constructor
  · rintro ⟨info, hinfo⟩ result hresult hne
    obtain ⟨prompts, hprompts, -⟩ := except_map_eq_ok.mp hinfo
    obtain ⟨prompt, hprompt⟩ := forall_of_mapM_eq_ok hprompts result hresult
    rw [requestPrompt, if_neg hne] at hprompt
    exact ⟨prompt, hprompt⟩
  · intro hall
    obtain ⟨prompts, hprompts⟩ : ∃ prompts,
        (selectRequests inferenceResults numRequests).mapM requestPrompt = .ok prompts := by
      apply exists_mapM_eq_ok
      intro result hresult
      by_cases hnil : result.tokenIds = []
      · exact ⟨_, if_pos hnil⟩
      · rw [requestPrompt, if_neg hnil]
        exact hall result hresult hnil
    rw [hprompts]
    exact ⟨_, rfl⟩

/-- The `i`-th new dictionary lies behind the old ones and holds the `i`-th aligned record. -/
theorem getElem?_heap_of_new {heap : Heap} {aligned : List Record} {i ref : ℕ}
    (href : ((List.range aligned.length).map (heap.length + ·))[i]? = some ref) :
    heap.length ≤ ref ∧ ∃ entry, aligned[i]? = some entry ∧ (heap ++ aligned)[ref]? = some entry := by
  rw [List.getElem?_map, Option.map_eq_some_iff] at href
  obtain ⟨i', hi', rfl⟩ := href
  obtain ⟨hi, hii'⟩ := List.getElem?_eq_some_iff.mp hi'
  rw [List.getElem_range] at hii'
  subst hii'
  rw [List.length_range] at hi
  refine ⟨Nat.le_add_right _ _, aligned[i], List.getElem?_eq_getElem hi, ?_⟩
  rw [List.getElem?_append_right (by omega), Nat.add_sub_cancel_left, List.getElem?_eq_getElem hi]

/-- `prepare_token_info` returns exactly when the prompt of every selected request with tokens can be
extracted. Its boundaries then partition the tokens, and alignment returns one new dictionary for each
of the first `min` tokens and records, the copy of the record for that token; the dictionaries that
existed before are as they were. -/
theorem alignment_partitions (inferenceResults : List InferenceResult) (numRequests : Option ℤ) :
    ((∃ info, prepareTokenInfo inferenceResults numRequests = .ok info) ↔
      ∀ result ∈ selectRequests inferenceResults numRequests, result.tokenIds ≠ [] →
        ∃ prompt, extractPromptFromOriginalData result.originalData = .ok prompt) ∧
    ∀ info, prepareTokenInfo inferenceResults numRequests = .ok info →
      info.Partition (selectRequests inferenceResults numRequests) ∧
      ∀ (tokenizer : Option Tokenizer) (heap : Heap) (records : List ℕ),
        (∀ ref ∈ records, ref < heap.length) →
        ∃ heap' aligned,
          alignTokensWithExpertsInPlace inferenceResults heap records tokenizer numRequests =
            .ok (heap', aligned) ∧
          (∀ ref < heap.length, heap'[ref]? = heap[ref]?) ∧
          aligned.length = min info.allTokenIds.length records.length ∧
          ∀ (i ref : ℕ), aligned[i]? = some ref → heap.length ≤ ref ∧
            ∃ record entry, (records[i]?).bind (heap[·]?) = some record ∧
              heap'[ref]? = some entry ∧
              AlignedTo info (selectRequests inferenceResults numRequests) tokenizer i record entry := by
  refine ⟨exists_prepareTokenInfo_iff inferenceResults numRequests, fun info hinfo => ?_⟩
  have hmap := hinfo
  rw [prepareTokenInfo_eq_map] at hmap
  obtain ⟨prompts, hprompts, rfl⟩ := except_map_eq_ok.mp hmap
  refine ⟨partition_boundariesFrom _ prompts, ?_⟩
  intro tokenizer heap records hrefs
  obtain ⟨aligned, haligned, hlength, hentries⟩ := getElem?_alignTokensWithExperts
    { records := records.map fun ref => heap.getD ref {} } tokenizer hinfo
  rw [List.length_map] at hlength
  refine ⟨heap ++ aligned, (List.range aligned.length).map (heap.length + ·), ?_, ?_, ?_, ?_⟩
  · rw [alignTokensWithExpertsInPlace_eq hrefs, haligned]
    rfl
  · intro ref href
    exact List.getElem?_append_left href
  · rw [List.length_map, List.length_range, hlength]
  · intro i ref href
    obtain ⟨hnew, entry, hentry, hheap⟩ := getElem?_heap_of_new href
    obtain ⟨record, tokenId, hrecord, htoken, rfl⟩ := hentries i entry hentry
    refine ⟨hnew, record, _, ?_, hheap, alignedTo_alignRecord hprompts tokenizer htoken record⟩
    rw [List.getElem?_map, Option.map_eq_some_iff] at hrecord
    obtain ⟨ref, href, rfl⟩ := hrecord
    have hlt := hrefs ref (List.mem_of_getElem? href)
    rw [href, Option.bind_some, List.getD_eq_getElem heap {} hlt, List.getElem?_eq_getElem hlt]

/-- A request with a token whose `messages` is `null`: the loop over the messages raises, and there is no
token list at all. -/
theorem prepareTokenInfo_raises :
    let inferenceResults : List InferenceResult :=
      [{ requestId := 0, tokenIds := [7], originalData := .obj [("messages".toList, .null)] }]
    prepareTokenInfo inferenceResults none = .error .typeError ∧
      ¬∃ info, prepareTokenInfo inferenceResults none = .ok info ∧
        info.Partition (selectRequests inferenceResults none) := by
  have hraises : prepareTokenInfo [{
      requestId := 0, tokenIds := [7], originalData := .obj [("messages".toList, .null)] }] none =
      .error .typeError := by decide
  refine ⟨hraises, ?_⟩
  rintro ⟨info, hinfo, -⟩
  exact absurd (hraises.symm.trans hinfo) (by simp)

/-- Three requests, the middle one without tokens, and one record for three tokens. -/
theorem alignment_partitions_sample :
    let inferenceResults : List InferenceResult :=
      [{ requestId := 0, tokenIds := [7, 8] }, { requestId := 1, tokenIds := [] },
        { requestId := 2, tokenIds := [9] }]
    let info : TokenInfo := ⟨[7, 8, 9], [(0, 2), (2, 2), (2, 3)], [.str [], .str [], .str []]⟩
    info.Partition inferenceResults ∧
      ∃ heap' aligned, alignTokensWithExpertsInPlace inferenceResults [{}] [0] none none =
        .ok (heap', aligned) ∧ aligned.length = 1 := by
  intro inferenceResults info
  have hinfo : prepareTokenInfo inferenceResults none = .ok info := by decide
  obtain ⟨hpart, halign⟩ := (alignment_partitions inferenceResults none).2 info hinfo
  obtain ⟨heap', aligned, hrun, -, hlength, -⟩ := halign none [{}] [0] (by simp)
  exact ⟨hpart, heap', aligned, hrun, hlength⟩

end MoeSpecialization.Postprocess
