import MoeSpecialization.Common.JsonText
import MoeSpecialization.Common.PyDict
import MoeSpecialization.Common.PyM
import MoeSpecialization.Common.TextLines

/-!
# The inference client

Reference: `preprocess/infer_and_save.py` (`MoEInferenceManager`, `get_prompt_hash`,
`process_single_source`) and `MoEClient.chat` of `preprocess/infer_backend.py`.

The client's world is the text of its output file, the files of its `expert_logs` folder and the calls
it has made so far. The server, the network and the clock are an environment that answers each call
from the calls before it: an environment is any behaviour of theirs. Printing is left out.
-/

namespace MoeSpecialization.Client

open Py

/-- What `requests.request` does: raise, or return a response with a status, a text and what its
`json()` returns or raises. -/
inductive Http where
  | exception (msg : List Char)
  | response (statusCode : ℕ) (text : List Char) (json : Except (List Char) Json)

/-- A call of the client, with what came back from the recorder's endpoints and the second in which a
dump is stored. -/
inductive Call where
  | control (endpoint : String) (res : Json)
  | dump (res : Json) (second : ℕ)
  | chat (messages : Json)

/-- Everything the client talks to. Each answer may depend on the calls made before. -/
structure Env where
  enableExpertRecording : Bool := true
  http : List Call → String → Http
  chat : List Call → Except Error Json
  latency : List Call → NumLit
  second : List Call → ℕ

/-- The client's files and the calls it has made. -/
structure World where
  outputFile : Option (List Char) := none
  expertLogs : PyDict String Json := ∅
  calls : List Call := []

/-- Add a call to the history. -/
def World.addCall (call : Call) (w : World) : World := { w with calls := w.calls ++ [call] }

/-- `open(output_file, 'a')`: the file exists afterwards. -/
def World.openOutput (w : World) : World := { w with outputFile := some (w.outputFile.getD []) }

/-- `f_out.write(line)` and `f_out.flush()`. -/
def World.appendOutput (line : List Char) (w : World) : World :=
  { w with outputFile := some (w.outputFile.getD [] ++ line) }

/-- Write a file of `expert_logs`, in place of one of the same name. -/
def World.writeLog (name : String) (res : Json) (w : World) : World :=
  { w with expertLogs := w.expertLogs.set name res }

/-! ## The manager -/

/-- The reply `{"error": …, "msg": …}`. -/
def errorReply (error : Json) (msg : List Char) : Json :=
  .obj [("error".toList, error), ("msg".toList, .str msg)]

/-- `_request`, for what `requests.request` does. -/
def request : Http → Json
  | .exception msg => errorReply (.str "exception".toList) msg
  | .response statusCode text json =>
    if statusCode = 404 then
      errorReply (.str "404".toList)
        ("Endpoint not found. Ensure server started with " ++
          "--expert-distribution-recorder-mode per_token").toList
    else if statusCode = 200 then
      match json with
      | .ok res => res
      | .error msg => errorReply (.str "exception".toList) msg
    else errorReply (.num (.ofNat statusCode)) text

section

variable (env : Env)

/-- `manage_recording`. The message of a failure is printed, hence read. -/
def manageRecording (action : String) : PyM World Bool :=
  if env.enableExpertRecording then do
    let w ← get
    let endpoint := action ++ "_expert_distribution_record"
    let res := request (env.http w.calls endpoint)
    modify (World.addCall (.control endpoint res))
    let failed ← PyM.ofExcept (res.contains "error")
    if failed then
      let _ ← PyM.ofExcept (res.item "msg")
      pure false
    else pure true
  else pure true

/-- The name of a dump file, `f"dist_{source_name}_{int(time.time())}.json"`. -/
def dumpName (sourceName : String) (second : ℕ) : String :=
  "dist_" ++ sourceName ++ "_" ++ toString second ++ ".json"

/-- `dump_records`. -/
def dumpRecords (sourceName : String) : PyM World Unit :=
  if env.enableExpertRecording then do
    let w ← get
    let res := request (env.http w.calls "dump_expert_distribution_record")
    let second := env.second w.calls
    modify (World.addCall (.dump res second))
    let failed ← PyM.ofExcept (res.contains "error")
    if failed then pure ()
    else modify (World.writeLog (dumpName sourceName second) res)
  else pure ()

end

/-! ## Resuming -/

/-- `get_prompt_hash`. -/
def getPromptHash (item : Json) : Except Error Json := do
  if ← item.contains "messages" then
    let messages ← item.item "messages"
    let message ← messages.first
    message.get "content" (.str [])
  else item.get "question" (.str [])

/-- The prompt hash of an item as a member of a set. -/
def promptKey (item : Json) : Except Error Json.HashKey := do
  let pHash ← getPromptHash item
  pHash.hashKey

/-- `json.loads(line)['original_data']`. -/
def originalData (line : List Char) : Except Error Json := do
  let v ← Json.loads line
  v.item "original_data"

/-- The `processed_prompts` of a file. A line that raises is skipped. -/
def processedPrompts (text : List Char) : List Json.HashKey :=
  (readLines text).filterMap fun line => (originalData line >>= promptKey).toOption

/-! ## One source -/

/-- `response['choices'][0]['message']['content']`. -/
def generatedResponse (response : Json) : Except Error Json := do
  let choices ← response.item "choices"
  let choice ← choices.first
  let message ← choice.item "message"
  message.item "content"

/-- `json.dumps(res_item, ensure_ascii=False) + "\n"`. -/
def outputLine (item content : Json) (duration : NumLit) (response : Json) : List Char :=
  Json.dumps (.obj
    [("original_data".toList, item), ("generated_response".toList, content),
      ("latency".toList, .num duration), ("full_response".toList, response)]) ++ ['\n']

/-- `item.get('messages', [{"role": "user", "content": item.get('question', '')}])`. -/
def messagesOf (item : Json) : Except Error Json := do
  let question ← item.get "question" (.str [])
  item.get "messages"
    (.arr [.obj [("role".toList, .str "user".toList), ("content".toList, question)]])

section

variable (env : Env) (sourceName : String)

/-- The output line of a response, if it has choices. -/
def writeResponse (item response : Json) (duration : NumLit) : PyM World Unit :=
  if response.truthy then do
    let hasChoices ← PyM.ofExcept (response.contains "choices")
    if hasChoices then
      let content ← PyM.ofExcept (generatedResponse response)
      modify (World.appendOutput (outputLine item content duration response))
    else pure ()
  else pure ()

/-- The body of the `try` statement. -/
def inferItem (idx : ℕ) (item messages : Json) : PyM World Unit := do
  modify (World.addCall (.chat messages))
  let w ← get
  let response ← PyM.ofExcept (env.chat w.calls)
  writeResponse item response (env.latency w.calls)
  if (idx + 1) % 20 = 0 then dumpRecords env sourceName else pure ()

/-- One iteration of the loop over the items. -/
def processItem (processed : List Json.HashKey) (p : Json × ℕ) : PyM World Unit := do
  let pHash ← PyM.ofExcept (promptKey p.1)
  if pHash ∈ processed then pure ()
  else
    let messages ← PyM.ofExcept (messagesOf p.1)
    PyM.suppress (inferItem env sourceName p.2 p.1 messages)

/-- `process_single_source`. -/
def processSingleSource (items : List Json) : PyM World Unit := do
  let w ← get
  let processed := processedPrompts (w.outputFile.getD [])
  let _ ← manageRecording env "start"
  modify World.openOutput
  items.zipIdx.forM (processItem env sourceName processed)
  dumpRecords env sourceName
  let _ ← manageRecording env "stop"

end

end MoeSpecialization.Client
