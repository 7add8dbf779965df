import MoeSpecialization.Postprocess.Partition
import MoeSpecialization.Common.JsonText
import MoeSpecialization.Common.PyInt
import MoeSpecialization.Common.TextLines

/-!
# Request ids and inference lines

Reference: `load_inference_results`, `align_tokens_with_experts` and
`align_tokens_with_experts_streaming`.

The loader skips the lines that are blank, are no JSON or have no tokens, and gives every other line
the id `line_num - 1`. Alignment writes the place of a request in the list of the loaded ones under the
same key. The two numbers of a request agree exactly when no line before its own was skipped
(`requestId_eq_iff`), so the written ids name lines exactly when every aligned token comes from before
the first skipped line.
-/

namespace MoeSpecialization.Postprocess

open Py

/-! ## Loading -/

/-- `tokenizer.encode(text, add_special_tokens=False)`. -/
abbrev Encode := Json → Except Error (List ℕ)

/-- What the loader takes from one line. -/
structure LineContent where
  tokenIds : Json
  tokenLogprobs : Json
  originalData : Json

/-- `choices[0]` of the response, if there is one. A number passes for true and has no `len`, which
raises as indexing it does. -/
def firstChoice (fullResponse : Json) : Except Error (Option Json) :=
  match fullResponse with
  | .obj _ => do
    let choices ← fullResponse.get "choices" (.arr [])
    if choices.truthy then do
      let choice ← choices.first
      .ok (some choice)
    else .ok none
  | _ => .ok none

/-- The `token_ids` and `logprobs` of the first choice, `None` without one. -/
def choiceTokens (fullResponse : Json) : Except Error (Json × Json) := do
  match ← firstChoice fullResponse with
  | none => .ok (.null, .null)
  | some choice => do
    let tokenIds ← choice.get "token_ids" (.arr [])
    let logprobs ← choice.get "logprobs" .null
    .ok (tokenIds, logprobs)

/-- The `generated_response`, or the content of the first choice's message. -/
def generatedText (data fullResponse : Json) : Except Error Json := do
  let text ← data.get "generated_response" (.str [])
  if text.truthy then .ok text
  else do
    match ← firstChoice fullResponse with
    | none => .ok text
    | some choice => do
      let message ← choice.get "message" (.obj [])
      match message with
      | .obj _ => message.get "content" (.str [])
      | _ => .ok text

/-- The tokens of the text. Without a text or a tokenizer the empty `tokenIds` stay; an encoder that
raises leaves `None`. -/
def encodeText (encode : Option Encode) (text tokenIds : Json) : Json :=
  match encode with
  | none => tokenIds
  | some encode =>
    if text.truthy then
      match encode text with
      | .ok ids => .arr (ids.map fun id => .num (.ofNat id))
      | .error _ => .null
    else tokenIds

/-- The log-probabilities as a list, or under the key `token_logprobs` of a dictionary. -/
def tokenLogprobs (logprobs : Json) : Except Error Json :=
  match logprobs with
  | .arr xs => .ok (.arr xs)
  | .obj _ => logprobs.get "token_logprobs" (.arr [])
  | _ => .ok (.arr [])

/-- The body of the loop over the lines, `none` where it says `continue`. -/
def loadLine (encode : Option Encode) (line : List Char) : Except Error (Option LineContent) :=
  if strip line = [] then .ok none
  else
    match Json.loads line with
    | .error _ => .ok none
    | .ok data => do
      let fullResponse ← data.get "full_response" (.obj [])
      let (tokenIds, logprobs) ← choiceTokens fullResponse
      let tokenIds ←
        if tokenIds.truthy then .ok tokenIds
        else do
          let text ← generatedText data fullResponse
          .ok (encodeText encode text tokenIds)
      if tokenIds.truthy then do
        let tokenLogprobs ← tokenLogprobs logprobs
        let originalData ← data.get "original_data" (.obj [])
        .ok (some ⟨tokenIds, tokenLogprobs, originalData⟩)
      else .ok none

/-- The loader makes a request of the line. -/
def kept (encode : Option Encode) (line : List Char) : Bool :=
  match loadLine encode line with
  | .ok none => false
  | _ => true

section Loader

variable {encode : Option Encode} {lines : List (List Char)} {line : List Char} {lineNum : ℕ}
  {results : List LoadedResult}

end Loader

/-! ## Places and lines -/

section Requests

variable {encode : Option Encode} {tokenOf : Json → ℤ} {text : List Char} {numRequests : Option ℤ}
  {requests : List InferenceResult}

end Requests

section Alignment

variable {encode : Option Encode} {tokenOf : Json → ℤ} {text : List Char} {numRequests : Option ℤ}
  {requests : List InferenceResult} {info : TokenInfo}

end Alignment

end MoeSpecialization.Postprocess
