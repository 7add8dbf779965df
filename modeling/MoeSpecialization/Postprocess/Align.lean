import MoeSpecialization.Postprocess.Record
import MoeSpecialization.Common.PyM
import Mathlib.Data.List.Range

/-!
# Alignment of output tokens with expert records

Reference: `prepare_token_info`, `align_tokens_with_experts` and
`align_tokens_with_experts_streaming`.

The token ids of all requests are laid end to end and paired with the records by position. The
one-shot function pairs the whole record list at once; the streaming function pairs the records of one
file, from a global token index on, and stops at the last token. `alignStreaming_append` is what makes
the two comparable: streaming over a concatenation is streaming over the parts, the second from the
index where the first ends, also when the tokens run out inside the first part.
-/

namespace MoeSpecialization.Postprocess

open Py

/-! ## The token list and its request boundaries -/

/-- The content of the first user message among `messages`. -/
def firstUserContent : List Json → Except Error Json
  | [] => .ok (.str [])
  | msg :: messages => do
    let role ← msg.get "role" .null
    if role = .str "user".toList then msg.get "content" (.str []) else firstUserContent messages

/-- `extract_prompt_from_original_data`. -/
def extractPromptFromOriginalData (originalData : Json) : Except Error Json := do
  let messages ← originalData.get "messages" (.arr [])
  match messages with
  | .arr msgs => firstUserContent msgs
  -- iterating over a string or a dictionary yields strings, which have no `get`
  | .str [] | .obj [] => .ok (.str [])
  | .str _ | .obj _ => .error .attributeError
  | .null | .bool _ | .num _ => .error .typeError

/-- What `prepare_token_info` returns. -/
structure TokenInfo where
  allTokenIds : List ℤ
  requestBoundaries : List (ℕ × ℕ)
  requestPrompts : List Json
deriving DecidableEq

/-- The variables of the loop over the requests. -/
structure TokenLoop extends TokenInfo where
  currentIdx : ℕ

/-- The loop before the first request. -/
def TokenLoop.init : TokenLoop := ⟨⟨[], [], []⟩, 0⟩

/-- One iteration of the loop over the requests. -/
def TokenLoop.step (s : TokenLoop) (result : InferenceResult) : Except Error TokenLoop :=
  if result.tokenIds = [] then
    .ok { s with
      requestBoundaries := s.requestBoundaries ++ [(s.currentIdx, s.currentIdx)]
      requestPrompts := s.requestPrompts ++ [.str []] }
  else do
    let prompt ← extractPromptFromOriginalData result.originalData
    let endIdx := s.currentIdx + result.tokenIds.length
    .ok { allTokenIds := s.allTokenIds ++ result.tokenIds
          requestBoundaries := s.requestBoundaries ++ [(s.currentIdx, endIdx)]
          requestPrompts := s.requestPrompts ++ [prompt]
          currentIdx := endIdx }

/-- The requests that `num_requests` selects; a negative number selects none. -/
def selectRequests (inferenceResults : List InferenceResult) (numRequests : Option ℤ) :
    List InferenceResult :=
  inferenceResults.take
    (min (numRequests.getD inferenceResults.length) inferenceResults.length).toNat

/-- `prepare_token_info`. -/
def prepareTokenInfo (inferenceResults : List InferenceResult) (numRequests : Option ℤ) :
    Except Error TokenInfo := do
  let s ← (selectRequests inferenceResults numRequests).foldlM TokenLoop.step .init
  .ok s.toTokenInfo

/-! ## Pairing records with tokens -/

/-- The text of a token, `None` without a tokenizer or when decoding raises. -/
def decodeToken (tokenizer : Option Tokenizer) (tokenId : ℤ) : Option String :=
  tokenizer.bind fun t => (t.decode [tokenId]).toOption

/-- The first request whose half-open range holds the token index. -/
def requestOf (requestBoundaries : List (ℕ × ℕ)) (tokenIndex : ℕ) : Option ℕ :=
  requestBoundaries.findIdx? fun b => b.1 ≤ tokenIndex && tokenIndex < b.2

/-- The copy of a record extended with the keys of the token at `tokenIndex`. -/
def alignRecord (info : TokenInfo) (tokenizer : Option Tokenizer) (tokenIndex : ℕ) (tokenId : ℤ)
    (record : Record) : Record :=
  let requestIdx := requestOf info.requestBoundaries tokenIndex
  { record with
    outputTokenId := some tokenId
    outputToken := decodeToken tokenizer tokenId
    prompt := some (requestIdx.elim (.str []) fun r => info.requestPrompts.getD r (.str []))
    requestId := requestIdx
    tokenIndex := some tokenIndex }

/-- `align_tokens_with_experts_streaming`: the records of one file, from the global index
`startTokenIndex` on. -/
def alignTokensWithExpertsStreaming (info : TokenInfo) (tokenizer : Option Tokenizer) :
    (records : List Record) → (startTokenIndex : ℕ) → List Record
  | [], _ => []
  | record :: records, globalTokenIndex =>
    match info.allTokenIds[globalTokenIndex]? with
    | none => []
    | some tokenId =>
      alignRecord info tokenizer globalTokenIndex tokenId record ::
        alignTokensWithExpertsStreaming info tokenizer records (globalTokenIndex + 1)

/-- `align_tokens_with_experts`: the whole record list at once. It builds the token list with the loop
of `prepare_token_info`. -/
def alignTokensWithExperts (inferenceResults : List InferenceResult) (expertData : ExpertData)
    (tokenizer : Option Tokenizer) (numRequests : Option ℤ) : Except Error (List Record) := do
  let info ← prepareTokenInfo inferenceResults numRequests
  let records := expertData.records
  let matchCount := min info.allTokenIds.length records.length
  .ok <| (List.finRange matchCount).map fun i : Fin matchCount =>
    alignRecord info tokenizer i.val
      (info.allTokenIds.get ⟨i.val, by have := i.isLt; omega⟩)
      (records.get ⟨i.val, by have := i.isLt; omega⟩)

/-! ## Every token has a request -/

/-- The token ranges of consecutive requests, the first one starting at `start`. -/
def boundariesFrom (start : ℕ) : List InferenceResult → List (ℕ × ℕ)
  | [] => []
  | result :: results =>
    (start, start + result.tokenIds.length) :: boundariesFrom (start + result.tokenIds.length) results

/-- The prompt that the loop keeps for a request: a request without tokens is skipped with an empty
one. -/
def requestPrompt (result : InferenceResult) : Except Error Json :=
  if result.tokenIds = [] then .ok (.str []) else extractPromptFromOriginalData result.originalData

/-- The loop after further requests with the given prompts. -/
def TokenLoop.after (s : TokenLoop) (results : List InferenceResult) (prompts : List Json) :
    TokenLoop where
  allTokenIds := s.allTokenIds ++ results.flatMap (·.tokenIds)
  requestBoundaries := s.requestBoundaries ++ boundariesFrom s.currentIdx results
  requestPrompts := s.requestPrompts ++ prompts
  currentIdx := s.currentIdx + (results.flatMap (·.tokenIds)).length

theorem TokenLoop.step_eq (s : TokenLoop) (result : InferenceResult) :
    s.step result = (requestPrompt result).map fun prompt => s.after [result] [prompt] := by
  unfold TokenLoop.step requestPrompt
  split
  · rename_i hnil
    simp [Except.map, TokenLoop.after, boundariesFrom, hnil]
  · cases extractPromptFromOriginalData result.originalData with
    | error e => rfl
    | ok prompt =>
      simp only [TokenLoop.after, boundariesFrom, Except.map, List.flatMap_cons, List.flatMap_nil,
        List.append_nil]
      rfl

/-- Going on after one request is going on after the longer list. -/
theorem TokenLoop.after_cons (s : TokenLoop) (result : InferenceResult)
    (results : List InferenceResult) (prompt : Json) (prompts : List Json) :
    (s.after [result] [prompt]).after results prompts =
      s.after (result :: results) (prompt :: prompts) := by
  simp [TokenLoop.after, boundariesFrom, Nat.add_assoc]

/-- The loop over the requests raises exactly when a prompt cannot be extracted, and lays the requests
end to end. -/
theorem TokenLoop.foldlM_eq (s : TokenLoop) (results : List InferenceResult) :
    results.foldlM TokenLoop.step s =
      (results.mapM requestPrompt).map fun prompts => s.after results prompts := by
  induction results generalizing s with
  | nil =>
    show Except.ok s = Except.ok (s.after [] [])
    simp [TokenLoop.after, boundariesFrom]
  | cons result results ih =>
    rw [List.foldlM_cons, TokenLoop.step_eq, List.mapM_cons]
    cases requestPrompt result with
    | error e => rfl
    | ok prompt =>
      show results.foldlM TokenLoop.step (s.after [result] [prompt]) = _
      rw [ih]
      cases results.mapM requestPrompt with
      | error e => rfl
      | ok prompts =>
        exact congrArg Except.ok (s.after_cons result results prompt prompts)

/-- `prepare_token_info` in one equation. -/
theorem prepareTokenInfo_eq_map (inferenceResults : List InferenceResult) (numRequests : Option ℤ) :
    prepareTokenInfo inferenceResults numRequests =
      ((selectRequests inferenceResults numRequests).mapM requestPrompt).map fun prompts =>
        ⟨(selectRequests inferenceResults numRequests).flatMap (·.tokenIds),
          boundariesFrom 0 (selectRequests inferenceResults numRequests), prompts⟩ := by
  rw [prepareTokenInfo, TokenLoop.foldlM_eq]
  cases (selectRequests inferenceResults numRequests).mapM requestPrompt with
  | error e => rfl
  | ok prompts => rfl

/-- The loop lays the token ids of the selected requests end to end. -/
theorem prepareTokenInfo_eq {inferenceResults : List InferenceResult} {numRequests : Option ℤ}
    {info : TokenInfo} (h : prepareTokenInfo inferenceResults numRequests = .ok info) :
    info.allTokenIds = (selectRequests inferenceResults numRequests).flatMap (·.tokenIds) ∧
      info.requestBoundaries =
        boundariesFrom 0 (selectRequests inferenceResults numRequests) := by
  rw [prepareTokenInfo_eq_map] at h
  obtain ⟨prompts, -, rfl⟩ := except_map_eq_ok.mp h
  exact ⟨rfl, rfl⟩

theorem selectRequests_none (results : List InferenceResult) : selectRequests results none = results := by
  simp [selectRequests]

/-- A token index lies in the range of the request that it is attributed to. -/
theorem requestOf_boundariesFrom {results : List InferenceResult} {start i k : ℕ}
    (h : requestOf (boundariesFrom start results) i = some k) :
    ∃ result j, results[k]? = some result ∧ j < result.tokenIds.length ∧
      i = start + ((results.take k).flatMap (·.tokenIds)).length + j := by
  induction results generalizing start k with
  | nil => cases h
  | cons result results ih =>
    rw [requestOf, boundariesFrom, List.findIdx?_cons] at h
    split at h
    · rename_i hi
      cases h
      rw [Bool.and_eq_true, decide_eq_true_eq, decide_eq_true_eq] at hi
      refine ⟨result, i - start, rfl, ?_, ?_⟩
      · dsimp only at hi
        omega
      · simp only [List.take_zero, List.flatMap_nil, List.length_nil]
        omega
    -- not in the first range: the index is looked up in the others and counted on
    · cases hk : requestOf (boundariesFrom (start + result.tokenIds.length) results) i with
      | none =>
        rw [requestOf] at hk
        rw [hk] at h
        cases h
      | some k' =>
        obtain ⟨result', j, hget, hj, hi⟩ := ih hk
        rw [requestOf] at hk
        rw [hk] at h
        cases h
        refine ⟨result', j, hget, hj, ?_⟩
        rw [List.take_succ_cons, List.flatMap_cons, List.length_append]
        omega

theorem requestOf_boundariesFrom_isSome {results : List InferenceResult} {start i : ℕ}
    (hstart : start ≤ i) (hi : i < start + (results.flatMap (·.tokenIds)).length) :
    (requestOf (boundariesFrom start results) i).isSome := by
  induction results generalizing start with
  | nil => simp at hi; omega
  | cons result results ih =>
    rw [List.flatMap_cons, List.length_append] at hi
    rw [requestOf, boundariesFrom, List.findIdx?_cons]
    by_cases hlt : i < start + result.tokenIds.length
    · rw [if_pos (by simp [hstart, hlt])]
      rfl
    · rw [if_neg (by simp [hlt]), Option.isSome_map]
      exact ih (by omega) (by omega)

theorem requestOf_isSome {inferenceResults : List InferenceResult} {numRequests : Option ℤ}
    {info : TokenInfo} (h : prepareTokenInfo inferenceResults numRequests = .ok info) {i : ℕ}
    (hi : i < info.allTokenIds.length) : (requestOf info.requestBoundaries i).isSome := by
  obtain ⟨htokens, hbounds⟩ := prepareTokenInfo_eq h
  rw [hbounds]
  rw [htokens] at hi
  exact requestOf_boundariesFrom_isSome (Nat.zero_le i) (by omega)

section Streaming

variable (info : TokenInfo) (tokenizer : Option Tokenizer)

/-- Streaming stops at the last token. -/
theorem alignStreaming_of_le (records : List Record) {start : ℕ}
    (h : info.allTokenIds.length ≤ start) :
    alignTokensWithExpertsStreaming info tokenizer records start = [] := by
  cases records with
  | nil => rfl
  | cons record records => simp [alignTokensWithExpertsStreaming, h]

/-- One aligned record per record, as long as there are tokens. -/
theorem length_alignStreaming (records : List Record) (start : ℕ) :
    (alignTokensWithExpertsStreaming info tokenizer records start).length =
      min (info.allTokenIds.length - start) records.length := by
  induction records generalizing start with
  | nil => simp [alignTokensWithExpertsStreaming]
  | cons record records ih =>
    by_cases h : start < info.allTokenIds.length
    · simp only [alignTokensWithExpertsStreaming, List.getElem?_eq_getElem h, List.length_cons, ih]
      omega
    · rw [alignStreaming_of_le info tokenizer _ (by omega)]
      simp only [List.length_nil, List.length_cons]
      omega

/-- Streaming over a concatenation is streaming over its parts. -/
theorem alignStreaming_append (records records' : List Record) (start : ℕ) :
    alignTokensWithExpertsStreaming info tokenizer (records ++ records') start =
      alignTokensWithExpertsStreaming info tokenizer records start ++
        alignTokensWithExpertsStreaming info tokenizer records' (start + records.length) := by
  induction records generalizing start with
  | nil => simp [alignTokensWithExpertsStreaming]
  | cons record records ih =>
    by_cases h : start < info.allTokenIds.length
    · simp only [List.cons_append, alignTokensWithExpertsStreaming, List.getElem?_eq_getElem h, ih,
        List.length_cons, Nat.add_right_comm, Nat.add_assoc]
    · -- the tokens ended before this part, hence also before the next one
      rw [alignStreaming_of_le info tokenizer _ (by omega),
        alignStreaming_of_le info tokenizer _ (by omega),
        alignStreaming_of_le info tokenizer _ (by omega), List.append_nil]

/-- The entry of a streamed alignment at position `i`. -/
theorem getElem?_alignStreaming (records : List Record) (start i : ℕ) :
    (alignTokensWithExpertsStreaming info tokenizer records start)[i]? =
      (info.allTokenIds[start + i]?).bind fun tokenId =>
        (records[i]?).map (alignRecord info tokenizer (start + i) tokenId) := by
  induction records generalizing start i with
  | nil => cases h : info.allTokenIds[start + i]? <;> simp [alignTokensWithExpertsStreaming]
  | cons record records ih =>
    by_cases h : start < info.allTokenIds.length
    · cases i with
      | zero => simp [alignTokensWithExpertsStreaming, List.getElem?_eq_getElem h]
      | succ i =>
        simp only [alignTokensWithExpertsStreaming, List.getElem?_eq_getElem h,
          List.getElem?_cons_succ, ih, Nat.add_right_comm, Nat.add_assoc]
    · rw [alignStreaming_of_le info tokenizer _ (by omega),
        List.getElem?_eq_none (l := info.allTokenIds) (by omega)]
      rfl

end Streaming

/-- One-shot alignment is streaming alignment of the whole record list from index `0`. -/
theorem alignTokensWithExperts_eq_streaming (inferenceResults : List InferenceResult)
    (expertData : ExpertData) (tokenizer : Option Tokenizer) (numRequests : Option ℤ) :
    alignTokensWithExperts inferenceResults expertData tokenizer numRequests =
      (prepareTokenInfo inferenceResults numRequests).map fun info =>
        alignTokensWithExpertsStreaming info tokenizer expertData.records 0 := by
  rw [alignTokensWithExperts]
  cases prepareTokenInfo inferenceResults numRequests with
  | error e => rfl
  | ok info =>
    refine congrArg Except.ok (List.ext_getElem? fun i => ?_)
    rw [getElem?_alignStreaming, Nat.zero_add]
    by_cases hi : i < min info.allTokenIds.length expertData.records.length
    · rw [List.getElem?_eq_getElem (by rw [List.length_map, List.length_finRange]; exact hi),
        List.getElem_map, List.getElem_finRange, List.getElem?_eq_getElem (by omega),
        List.getElem?_eq_getElem (by omega)]
      rfl
    · rw [List.getElem?_eq_none (by rw [List.length_map, List.length_finRange]; omega)]
      by_cases ht : i < info.allTokenIds.length
      · rw [List.getElem?_eq_none (l := expertData.records) (by omega)]
        simp
      · rw [List.getElem?_eq_none (l := info.allTokenIds) (by omega)]
        rfl

/-- Every aligned record names its request and its token. -/
theorem alignTokensWithExperts_isSome {inferenceResults : List InferenceResult}
    {expertData : ExpertData} {tokenizer : Option Tokenizer} {numRequests : Option ℤ}
    {aligned : List Record}
    (h : alignTokensWithExperts inferenceResults expertData tokenizer numRequests = .ok aligned) :
    ∀ record ∈ aligned, record.requestId.isSome ∧ record.outputTokenId.isSome := by
  rw [alignTokensWithExperts] at h
  cases hinfo : prepareTokenInfo inferenceResults numRequests with
  | error e => rw [hinfo] at h; cases h
  | ok info =>
    rw [hinfo] at h
    cases h
    intro record hrecord
    obtain ⟨i, -, rfl⟩ := List.mem_map.mp hrecord
    refine ⟨requestOf_isSome hinfo ?_, rfl⟩
    have := i.isLt
    omega

end MoeSpecialization.Postprocess
