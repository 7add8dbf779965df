import MoeSpecialization.Client.Logs
import MoeSpecialization.Client.Resume

/-!
# Bracketing the recording

Reference: `process_single_source` of `preprocess/infer_and_save.py`.

The recorder is started before the loop over the items, and the last dump and the stop are straight-line
code after it. A chat call that fails is caught; the prompt hash of an item is computed outside the `try`
statement, so an item whose hash raises ends the run with the recorder on (`recording_bracketed_iff`).
The same hash of a line of the output file is computed inside one.
-/

namespace MoeSpecialization.Client

open Py

/-! ## Items with a prompt -/

/-- Whether a value can be a member of a `set`. -/
def isHashable : Json → Bool
  | .arr _ | .obj _ => false
  | _ => true

/-- Whether an item has a prompt that can be hashed: it is a dictionary, and either the first of its
`messages` is a dictionary with such a `content`, or it has no `messages` and such a `question`. -/
def hasPrompt : Json → Bool
  | .obj kvs =>
    match Json.field? kvs "messages".toList with
    | some (.arr (.obj message :: _)) =>
      isHashable ((Json.field? message "content".toList).getD (.str []))
    | some _ => false
    | none => isHashable ((Json.field? kvs "question".toList).getD (.str []))
  | _ => false

theorem exists_hashKey_iff (x : Json) : (∃ key, x.hashKey = .ok key) ↔ isHashable x = true := by
  cases x <;> simp [Json.hashKey, isHashable]

theorem get_eq_ok {x v dflt : Json} {k : String} (h : x.get k dflt = .ok v) :
    ∃ kvs, x = .obj kvs ∧ v = (Json.field? kvs k.toList).getD dflt := by
  cases x with
  | obj kvs => exact ⟨kvs, rfl, (Except.ok.inj h).symm⟩
  | _ => cases h

theorem item_eq_ok {x v : Json} {k : String} (h : x.item k = .ok v) :
    ∃ kvs, x = .obj kvs ∧ Json.field? kvs k.toList = some v := by
  cases x with
  | obj kvs =>
    simp only [Json.item] at h
    split at h
    · rename_i hfield
      exact ⟨kvs, rfl, hfield.trans (congrArg some (Except.ok.inj h))⟩
    · cases h
  | _ => cases h

/-- Only a list has a dictionary in front. -/
theorem first_eq_ok_obj {x : Json} {kvs : List (List Char × Json)} (h : x.first = .ok (.obj kvs)) :
    ∃ rest, x = .arr (.obj kvs :: rest) := by
  cases x with
  | arr xs =>
    cases xs with
    | nil => cases h
    | cons y rest =>
      cases h
      exact ⟨rest, rfl⟩
  | str s => cases s <;> cases h
  | _ => cases h

/-- The prompt hash of an item can be looked up exactly if the item has a prompt. -/
theorem exists_promptKey_iff (item : Json) :
    (∃ key, promptKey item = .ok key) ↔ hasPrompt item = true := by
  constructor
  · rintro ⟨key, h⟩
    obtain ⟨pHash, hhash, hkey⟩ := except_bind_eq_ok.mp h
    have hhashable := (exists_hashKey_iff pHash).mp ⟨key, hkey⟩
    obtain ⟨hasMessages, hcontains, h⟩ := except_bind_eq_ok.mp hhash
    split at h
    · obtain ⟨messages, hitem, h⟩ := except_bind_eq_ok.mp h
      obtain ⟨message, hfirst, hget⟩ := except_bind_eq_ok.mp h
      obtain ⟨kvs, rfl, hfield⟩ := item_eq_ok hitem
      obtain ⟨fields, rfl, rfl⟩ := get_eq_ok hget
      obtain ⟨rest, rfl⟩ := first_eq_ok_obj hfirst
      simp only [hasPrompt, hfield]
      exact hhashable
    · rename_i hnone
      obtain ⟨kvs, rfl, rfl⟩ := get_eq_ok h
      cases hcontains
      simp only [hasPrompt, Option.not_isSome_iff_eq_none.mp hnone]
      exact hhashable
  · intro h
    cases item with
    | obj kvs =>
      simp only [promptKey, getPromptHash, Json.contains, Json.item]
      simp only [hasPrompt] at h
      split at h
      · rename_i hfield
        rw [hfield]
        exact (exists_hashKey_iff _).mpr h
      · cases h
      · rename_i hfield
        rw [hfield]
        exact (exists_hashKey_iff _).mpr h
    | _ => cases h

/-- An item with a prompt has messages for the chat call. -/
theorem exists_messagesOf {item : Json} (h : hasPrompt item = true) :
    ∃ messages, messagesOf item = .ok messages := by
  cases item with
  | obj kvs => exact ⟨_, rfl⟩
  | _ => cases h

/-! ## The recorder's endpoints -/

/-- A JSON body with status 200 is an object without an `error`, as the recorder's endpoints answer. -/
def ObjectReplies (env : Env) : Prop :=
  ∀ calls endpoint text res, env.http calls endpoint = .response 200 text (.ok res) →
    ∃ kvs, res = .obj kvs ∧ Json.field? kvs "error".toList = none

/-- `_request` returns a dictionary, with a `msg` if it has an `error`. -/
theorem request_reply {env : Env} (h : ObjectReplies env) (calls : List Call) (endpoint : String) :
    (∃ msg, (request (env.http calls endpoint)).contains "error" = .ok true ∧
        (request (env.http calls endpoint)).item "msg" = .ok msg) ∨
      (request (env.http calls endpoint)).contains "error" = .ok false := by
  have herror : ∀ (error : Json) (msg : List Char), (errorReply error msg).contains "error" = .ok true ∧
      (errorReply error msg).item "msg" = .ok (.str msg) := fun error msg => ⟨rfl, rfl⟩
  cases hhttp : env.http calls endpoint with
  | exception msg => exact .inl ⟨_, herror _ _⟩
  | response statusCode text json =>
    simp only [request]
    split
    · exact .inl ⟨_, herror _ _⟩
    · split
      · rename_i hstatus
        cases json with
        | ok res =>
          obtain ⟨kvs, rfl, hfield⟩ := h calls endpoint text res (hstatus ▸ hhttp)
          refine .inr ?_
          change Except.ok (Json.field? kvs "error".toList).isSome = _
          rw [hfield]
          rfl
        | error msg => exact .inl ⟨_, herror _ _⟩
      · exact .inl ⟨_, herror _ _⟩

section

variable {env : Env} (sourceName : String)

theorem run_manageRecording (h : ObjectReplies env) (henv : env.enableExpertRecording = true)
    (action : String) (w : World) : ∃ success res, (manageRecording env action).run w =
      .ok success (w.addCall (.control (action ++ "_expert_distribution_record") res)) := by
  rw [manageRecording, if_pos henv, PyM.run_bind_of_ok (PyM.run_get w),
    PyM.run_bind_of_ok (PyM.run_modify _ w)]
  rcases request_reply h w.calls (action ++ "_expert_distribution_record") with
    ⟨msg, herror, hmsg⟩ | herror
  · rw [herror, PyM.run_bind_of_ok (PyM.run_ofExcept_ok _ _), if_pos rfl, hmsg]
    exact ⟨false, _, rfl⟩
  · rw [herror]
    exact ⟨true, _, rfl⟩

theorem run_dumpRecords (h : ObjectReplies env) (henv : env.enableExpertRecording = true)
    (w : World) : ∃ w' res second, (dumpRecords env sourceName).run w = .ok ⟨⟩ w' ∧
      w'.calls = w.calls ++ [.dump res second] := by
  rw [dumpRecords, if_pos henv, PyM.run_bind_of_ok (PyM.run_get w),
    PyM.run_bind_of_ok (PyM.run_modify _ w)]
  rcases request_reply h w.calls "dump_expert_distribution_record" with ⟨-, herror, -⟩ | herror
  · rw [herror]
    exact ⟨_, _, _, rfl, rfl⟩
  · rw [herror]
    exact ⟨_, _, _, rfl, rfl⟩

/-! ## The calls of the loop -/

/-- The messages of the chat calls. -/
def chatMessages (calls : List Call) : List Json :=
  calls.filterMap fun
    | .chat messages => some messages
    | _ => none

/-- A call to start or stop the recorder. -/
def Call.isControl : Call → Bool
  | .control _ _ => true
  | _ => false

/-- Between the two worlds the given messages were sent, and the recorder was neither started nor
stopped. -/
def Chats (messages : List Json) (w w' : World) : Prop :=
  ∃ calls, w'.calls = w.calls ++ calls ∧ chatMessages calls = messages ∧
    ∀ call ∈ calls, call.isControl = false

theorem chats_of_calls_eq {w w' : World} (h : w'.calls = w.calls) : Chats [] w w' :=
  ⟨[], by simp [h], rfl, by simp⟩

theorem chats_addCall {w : World} {call : Call} (h : call.isControl = false) :
    Chats (chatMessages [call]) w (w.addCall call) :=
  ⟨[call], rfl, rfl, by simpa using h⟩

theorem Chats.trans {messages messages' : List Json} {w w' w'' : World} (h : Chats messages w w')
    (h' : Chats messages' w' w'') : Chats (messages ++ messages') w w'' := by
  obtain ⟨calls, hcalls, rfl, hcontrol⟩ := h
  obtain ⟨calls', hcalls', rfl, hcontrol'⟩ := h'
  refine ⟨calls ++ calls', ?_, List.filterMap_append, fun call hcall => ?_⟩
  · rw [hcalls', hcalls, List.append_assoc]
  · rcases List.mem_append.mp hcall with hcall | hcall
    · exact hcontrol call hcall
    · exact hcontrol' call hcall

/-- A statement that sends no messages and leaves the recorder on or off, on both paths. -/
abbrev SendsNothing {α : Type} (x : PyM World α) : Prop := PyM.Preserves (Chats []) x

theorem sendsNothing_bind {α β : Type} {x : PyM World α} {f : α → PyM World β}
    (hx : SendsNothing x) (hf : ∀ a, SendsNothing (f a)) : SendsNothing (x >>= f) :=
  PyM.preserves_bind (fun _ _ _ h h' => h.trans h') hx hf

theorem sendsNothing_pure {α : Type} (a : α) : SendsNothing (pure a : PyM World α) :=
  PyM.preserves_pure (fun _ => chats_of_calls_eq rfl) a

theorem sendsNothing_ofExcept {α : Type} (x : Except Error α) :
    SendsNothing (PyM.ofExcept x : PyM World α) :=
  PyM.preserves_ofExcept (fun _ => chats_of_calls_eq rfl) x

theorem sendsNothing_modify {f : World → World} (h : ∀ w, (f w).calls = w.calls) :
    SendsNothing (modify f : PyM World Unit) :=
  PyM.preserves_modify fun w => chats_of_calls_eq (h w)

theorem dumpRecords_sendsNothing : SendsNothing (dumpRecords env sourceName) := by
  unfold dumpRecords
  split
  · refine PyM.preserves_get_bind fun w => ?_
    refine sendsNothing_bind (PyM.preserves_modify fun w => ?_) (fun _ => ?_) w
    · exact @chats_addCall w (.dump _ _) rfl
    refine sendsNothing_bind (sendsNothing_ofExcept _) fun failed => ?_
    split
    · exact sendsNothing_pure _
    · exact sendsNothing_modify fun _ => rfl
  · exact sendsNothing_pure _

theorem writeResponse_sendsNothing (item response : Json) (duration : NumLit) :
    SendsNothing (writeResponse item response duration) := by
  unfold writeResponse
  split
  · refine sendsNothing_bind (sendsNothing_ofExcept _) fun hasChoices => ?_
    split
    · exact sendsNothing_bind (sendsNothing_ofExcept _) fun _ => sendsNothing_modify fun _ => rfl
    · exact sendsNothing_pure _
  · exact sendsNothing_pure _

/-- Wherever the body of the `try` statement ends, it has sent the messages of its item. -/
theorem inferItem_chats (idx : ℕ) (item messages : Json) :
    PyM.Preserves (Chats [messages]) (inferItem env sourceName idx item messages) := by
  intro w
  have hsent : Chats [messages] w (w.addCall (.chat messages)) := chats_addCall rfl
  refine hsent.trans ?_
  refine sendsNothing_bind (sendsNothing_ofExcept _) (fun response => ?_) _
  refine sendsNothing_bind (writeResponse_sendsNothing item response _) fun _ => ?_
  split
  · exact dumpRecords_sendsNothing sourceName
  · exact sendsNothing_pure _

/-- The messages that are sent for the items, in order: those of every item that is not processed. -/
def AttemptedIn (processed : List Json.HashKey) (items messages : List Json) : Prop :=
  List.Forall₂ (fun item m => messagesOf item = .ok m)
    (items.filter fun item => !isProcessed processed item) messages

/-- An iteration whose item has a prompt returns, having sent the messages of the item unless it is
processed. -/
theorem run_processItem_of_hasPrompt {processed : List Json.HashKey} {p : Json × ℕ}
    (h : hasPrompt p.1 = true) (w : World) :
    ∃ w' messages, (processItem env sourceName processed p).run w = .ok ⟨⟩ w' ∧
      AttemptedIn processed [p.1] messages ∧ Chats messages w w' := by
  obtain ⟨pHash, hkey⟩ := (exists_promptKey_iff p.1).mpr h
  obtain ⟨m, hm⟩ := exists_messagesOf h
  rw [processItem, hkey, PyM.run_bind_of_ok (PyM.run_ofExcept_ok _ w)]
  split
  · rename_i hmem
    exact ⟨w, [], rfl, by simp [AttemptedIn, isProcessed, hkey, hmem], chats_of_calls_eq rfl⟩
  · rename_i hmem
    rw [hm, PyM.run_bind_of_ok (PyM.run_ofExcept_ok _ w)]
    exact ⟨_, [m], rfl, by simp [AttemptedIn, isProcessed, hkey, hmem, hm],
      inferItem_chats sourceName p.2 p.1 m w⟩

/-- The loop over items with prompts returns, having attempted every item that is not processed. -/
theorem run_items_of_hasPrompt {processed : List Json.HashKey} {ps : List (Json × ℕ)}
    (h : ∀ p ∈ ps, hasPrompt p.1 = true) (w : World) :
    ∃ w' messages, (ps.forM (processItem env sourceName processed)).run w = .ok ⟨⟩ w' ∧
      AttemptedIn processed (ps.map Prod.fst) messages ∧ Chats messages w w' := by
  induction ps generalizing w with
  | nil => exact ⟨w, [], rfl, .nil, chats_of_calls_eq rfl⟩
  | cons p ps ih =>
    obtain ⟨w₁, messages, hrun, hattempted, hchats⟩ :=
      run_processItem_of_hasPrompt sourceName (h p List.mem_cons_self) w
    obtain ⟨w₂, messages', hrun', hattempted', hchats'⟩ :=
      ih (fun q hq => h q (List.mem_cons_of_mem p hq)) w₁
    refine ⟨w₂, messages ++ messages', ?_, ?_, hchats.trans hchats'⟩
    · exact (PyM.run_bind_of_ok hrun).trans hrun'
    · rw [List.map_cons, ← List.singleton_append, AttemptedIn, List.filter_append]
      exact List.rel_append hattempted hattempted'

/-- A loop that returns had items with prompts only. -/
theorem hasPrompt_of_run_items {processed : List Json.HashKey} {ps : List (Json × ℕ)} {w w' : World}
    (hrun : (ps.forM (processItem env sourceName processed)).run w = .ok ⟨⟩ w') :
    ∀ p ∈ ps, hasPrompt p.1 = true := by
  induction ps generalizing w with
  | nil => simp
  | cons p ps ih =>
    obtain ⟨_, w₁, hp, hps⟩ := PyM.run_bind_eq_ok.mp hrun
    obtain ⟨pHash, _, hread, -⟩ := PyM.run_bind_eq_ok.mp hp
    have hkey := (PyM.run_ofExcept_eq_ok.mp hread).1
    refine List.forall_mem_cons.mpr ⟨?_, ih hps⟩
    exact (exists_promptKey_iff p.1).mp ⟨pHash, hkey⟩

/-! ## A whole run -/

/-- The calls of a run that brackets its recording: the recorder is started, every item that is not
processed is attempted, in order, and the last two calls dump the records and stop the recorder. Without
recording there is only the loop. -/
def Bracketed (env : Env) (items : List Json) (w w' : World) : Prop :=
  ∃ loop : List Call, AttemptedIn (processedPrompts w.text) items (chatMessages loop) ∧
    (∀ call ∈ loop, call.isControl = false) ∧
    if env.enableExpertRecording then
      ∃ started dumped second stopped, w'.calls = w.calls ++
        .control "start_expert_distribution_record" started :: loop ++
          [.dump dumped second, .control "stop_expert_distribution_record" stopped]
    else w'.calls = w.calls ++ loop

theorem exists_bracketed (hreplies : ObjectReplies env) (henv : env.enableExpertRecording = true)
    {items : List Json} (h : ∀ p ∈ items.zipIdx, hasPrompt p.1 = true) (w : World) :
    ∃ w', (processSingleSource env sourceName items).run w = .ok ⟨⟩ w' ∧ Bracketed env items w w' := by
  rw [processSingleSource, PyM.run_bind_of_ok (PyM.run_get w)]
  obtain ⟨_, started, hstart⟩ := run_manageRecording hreplies henv "start" w
  rw [PyM.run_bind_of_ok hstart, PyM.run_bind_of_ok (PyM.run_modify _ _)]
  obtain ⟨w₁, messages, hloop, hattempted, loop, hcalls, rfl, hcontrol⟩ :=
    run_items_of_hasPrompt sourceName h _
  rw [PyM.run_bind_of_ok hloop]
  obtain ⟨w₂, dumped, second, hdump, hcalls₂⟩ := run_dumpRecords sourceName hreplies henv w₁
  rw [PyM.run_bind_of_ok hdump]
  obtain ⟨_, stopped, hstop⟩ := run_manageRecording hreplies henv "stop" w₂
  rw [PyM.run_bind_of_ok hstop]
  rw [List.zipIdx_map_fst] at hattempted
  refine ⟨_, rfl, loop, hattempted, hcontrol, ?_⟩
  rw [if_pos henv]
  refine ⟨started, dumped, second, stopped, ?_⟩
  simp [World.addCall, World.openOutput, hcalls₂, hcalls]

/-- Without recording, the start, the dump and the stop do nothing. -/
theorem exists_bracketed_of_disabled (henv : env.enableExpertRecording ≠ true) {items : List Json}
    (h : ∀ p ∈ items.zipIdx, hasPrompt p.1 = true) (w : World) :
    ∃ w', (processSingleSource env sourceName items).run w = .ok ⟨⟩ w' ∧ Bracketed env items w w' := by
  have hmanage : ∀ action, manageRecording env action = pure true := fun _ => if_neg henv
  have hdump : dumpRecords env sourceName = pure () := if_neg henv
  rw [processSingleSource, PyM.run_bind_of_ok (PyM.run_get w), hmanage,
    PyM.run_bind_of_ok (PyM.run_pure _ w), PyM.run_bind_of_ok (PyM.run_modify _ w)]
  obtain ⟨w₁, messages, hloop, hattempted, loop, hcalls, rfl, hcontrol⟩ :=
    run_items_of_hasPrompt sourceName h _
  rw [PyM.run_bind_of_ok hloop, hdump, hmanage]
  rw [List.zipIdx_map_fst] at hattempted
  refine ⟨w₁, rfl, loop, hattempted, hcontrol, ?_⟩
  rw [if_neg henv]
  exact hcalls

/-- **Bracketing.** Whatever the items are and whatever the chat calls do, a run returns with its recording
bracketed if and only if every item has a prompt. -/
theorem recording_bracketed_iff (env : Env) (sourceName : String) (items : List Json) (w : World)
    (hreplies : ObjectReplies env) :
    (∃ w', (processSingleSource env sourceName items).run w = .ok ⟨⟩ w' ∧ Bracketed env items w w') ↔
      ∀ item ∈ items, hasPrompt item = true := by
  constructor
  · rintro ⟨w', hrun, -⟩ item hitem
    rw [processSingleSource, PyM.run_bind_of_ok (PyM.run_get w)] at hrun
    obtain ⟨_, w₁, -, h₁⟩ := PyM.run_bind_eq_ok.mp hrun
    obtain ⟨_, w₂, -, h₂⟩ := PyM.run_bind_eq_ok.mp h₁
    obtain ⟨_, w₃, hloop, -⟩ := PyM.run_bind_eq_ok.mp h₂
    obtain ⟨i, hi⟩ := List.mem_iff_getElem?.mp hitem
    exact hasPrompt_of_run_items sourceName hloop (item, i) (List.mk_mem_zipIdx_iff_getElem?.mpr hi)
  · intro h
    have hitems : ∀ p ∈ items.zipIdx, hasPrompt p.1 = true :=
      fun p hp => h p.1 (List.fst_mem_of_mem_zipIdx hp)
    by_cases henv : env.enableExpertRecording = true
    · exact exists_bracketed sourceName hreplies henv hitems w
    · exact exists_bracketed_of_disabled sourceName henv hitems w

end

theorem objectReplies_sampleEnv (second : List Call → ℕ) : ObjectReplies (sampleEnv second) := by
  intro calls endpoint text res h
  simp only [sampleEnv] at h
  split at h
  · cases h
    exact ⟨_, rfl, rfl⟩
  · cases h

/-- Twenty questions. -/
theorem recording_bracketed_iff_sample :
    ∃ w', (processSingleSource (sampleEnv List.length) "aime" sampleItems).run {} = .ok ⟨⟩ w' ∧
      Bracketed (sampleEnv List.length) sampleItems {} w' :=
  (recording_bracketed_iff (sampleEnv List.length) "aime" sampleItems {}
    (objectReplies_sampleEnv List.length)).mpr (by decide +kernel)

/-- An item without messages in front of a question. -/
def emptyMessages : List Json := [.obj [("messages".toList, .arr [])], question "b"]

/-- The first item raises: the question is not attempted and the recorder is left on. -/
theorem empty_messages_leave_recording :
    ObjectReplies (sampleEnv List.length) ∧
    ¬(∃ w', (processSingleSource (sampleEnv List.length) "aime" emptyMessages).run {} = .ok ⟨⟩ w' ∧
      Bracketed (sampleEnv List.length) emptyMessages {} w') ∧
    ∃ res, ((processSingleSource (sampleEnv List.length) "aime" emptyMessages).final {}).calls =
      [.control "start_expert_distribution_record" res] := by
  refine ⟨objectReplies_sampleEnv List.length, ?_, _, rfl⟩
  rintro ⟨w', hrun, -⟩
  cases hrun

end MoeSpecialization.Client
