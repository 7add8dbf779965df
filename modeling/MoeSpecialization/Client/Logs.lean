import MoeSpecialization.Client.Source
import MoeSpecialization.Common.DictWrites
import MoeSpecialization.Common.PyInt
import Mathlib.Data.String.Basic

/-!
# The dump files of a run

Each successful dump empties the server's record list, so the file written from it is the only copy.
`successfulDumps` reads off the calls of a run what the server handed over and when; the invariant
`LogsInv` says that the files are those writes, one after the other, under the names built from the
seconds. What a reader of the folder gets is then a question about dictionaries, answered by
`Common/DictWrites.lean`: two dumps in one second share a file name, and names are compared as texts.
-/

namespace MoeSpecialization.Client

open Py

/-- `data.get('records', [])` of a dump file. -/
def recordsOf (res : Json) : List Json :=
  match res.get "records" (.arr []) with
  | .ok (.arr records) => records
  | _ => []

/-- The seconds and replies of the dumps that did not fail, in the order of the calls. -/
def successfulDumps (calls : List Call) : List (ℕ × Json) :=
  calls.filterMap fun
    | .dump res second => if res.contains "error" = .ok false then some (second, res) else none
    | _ => none

/-- The files of a folder in the order of their names, and their records one after the other. -/
def readLogs (expertLogs : PyDict String Json) : List Json :=
  PyDict.sortedConcat recordsOf expertLogs

/-- The folder holds the records of all successful dumps of the run, in the order of the dumps. -/
def NoRecordLost (w : World) : Prop :=
  readLogs w.expertLogs = (successfulDumps w.calls).flatMap fun d => recordsOf d.2

instance (w : World) : Decidable (NoRecordLost w) := inferInstanceAs (Decidable (_ = _))

/-- No dump that brought records is followed by a successful dump in the same second. -/
def SecondsDiffer (dumps : List (ℕ × Json)) : Prop :=
  dumps.Pairwise fun a b => recordsOf a.2 ≠ [] → a.1 ≠ b.1

/-- The file names of the dumps that brought records increase. -/
def NamesIncrease (sourceName : String) (dumps : List (ℕ × Json)) : Prop :=
  dumps.Pairwise fun a b => recordsOf a.2 ≠ [] → recordsOf b.2 ≠ [] →
    dumpName sourceName a.1 < dumpName sourceName b.1

/-! ## The files are the successful dumps -/

/-- The writes to the folder. -/
def logWrites (sourceName : String) (calls : List Call) : List (String × Json) :=
  (successfulDumps calls).map fun d => (dumpName sourceName d.1, d.2)

/-- The folder is what the successful dumps wrote. -/
def LogsInv (sourceName : String) (w : World) : Prop :=
  w.expertLogs = PyDict.writes (logWrites sourceName w.calls)

theorem dumpName_inj {sourceName : String} {s t : ℕ} :
    dumpName sourceName s = dumpName sourceName t ↔ s = t := by
  refine ⟨fun h => ?_, fun h => h ▸ rfl⟩
  have h := congrArg String.toList h
  simp only [dumpName, String.toList_append, List.append_cancel_left_eq,
    List.append_cancel_right_eq, String.toList_inj] at h
  exact toString_inj.mp h

theorem successfulDumps_append (calls calls' : List Call) :
    successfulDumps (calls ++ calls') = successfulDumps calls ++ successfulDumps calls' :=
  List.filterMap_append

section

variable (env : Env) (sourceName : String)

theorem logsInv_addCall {w : World} (h : LogsInv sourceName w) {call : Call}
    (hcall : successfulDumps [call] = []) : LogsInv sourceName (w.addCall call) := by
  rw [LogsInv, logWrites, World.addCall, successfulDumps_append, hcall, List.append_nil]
  exact h

theorem logsInv_writeLog {w : World} (h : LogsInv sourceName w) {res : Json} {second : ℕ}
    (hres : res.contains "error" = .ok false) :
    LogsInv sourceName
      ((w.addCall (.dump res second)).writeLog (dumpName sourceName second) res) := by
  have hcall : successfulDumps [.dump res second] = [(second, res)] := by
    simp [successfulDumps, hres]
  rw [LogsInv, logWrites, World.writeLog, World.addCall, successfulDumps_append, hcall,
    List.map_append, List.map_singleton, PyDict.writes_concat, h]
  rfl

/-- A statement keeps the invariant. -/
abbrev KeepsLogs {α : Type} (x : PyM World α) : Prop :=
  PyM.Preserves (fun w w' => LogsInv sourceName w → LogsInv sourceName w') x

theorem keepsLogs_bind {α β : Type} {x : PyM World α} {f : α → PyM World β}
    (hx : KeepsLogs sourceName x) (hf : ∀ a, KeepsLogs sourceName (f a)) :
    KeepsLogs sourceName (x >>= f) :=
  PyM.preserves_bind (fun _ _ _ h h' hw => h' (h hw)) hx hf

theorem keepsLogs_pure {α : Type} (a : α) : KeepsLogs sourceName (pure a : PyM World α) :=
  PyM.preserves_pure (fun _ => id) a

theorem keepsLogs_ofExcept {α : Type} (x : Except Error α) :
    KeepsLogs sourceName (PyM.ofExcept x : PyM World α) :=
  PyM.preserves_ofExcept (fun _ => id) x

theorem manageRecording_keepsLogs (action : String) :
    KeepsLogs sourceName (manageRecording env action) := by
  unfold manageRecording
  split
  · intro w h
    rw [PyM.final_get_bind]
    refine PyM.final_bind_of (P := LogsInv sourceName) ?_ fun _ => ?_
    · exact logsInv_addCall sourceName h rfl
    · refine keepsLogs_bind sourceName (keepsLogs_ofExcept sourceName _) fun failed => ?_
      split
      · exact keepsLogs_bind sourceName (keepsLogs_ofExcept sourceName _) fun _ =>
          keepsLogs_pure sourceName _
      · exact keepsLogs_pure sourceName _
  · exact keepsLogs_pure sourceName _

/-- The reply to a dump in a world. -/
def dumpReply (w : World) : Json := request (env.http w.calls "dump_expert_distribution_record")

/-- The call of a dump in a world. -/
def dumpCall (w : World) : Call := .dump (dumpReply env w) (env.second w.calls)

/-- Where a dump ends, by the reply. -/
theorem final_dumpRecords (henv : env.enableExpertRecording = true) (w : World) :
    (dumpRecords env sourceName).final w =
      if (dumpReply env w).contains "error" = .ok false then
        (w.addCall (dumpCall env w)).writeLog (dumpName sourceName (env.second w.calls))
          (dumpReply env w)
      else w.addCall (dumpCall env w) := by
  rw [dumpRecords, if_pos henv, PyM.final, PyM.run_bind_of_ok (PyM.run_get w),
    PyM.run_bind_of_ok (PyM.run_modify _ w)]
  cases hres : (dumpReply env w).contains "error" with
  | error e =>
    rw [dumpReply] at hres
    rw [hres]
    rfl
  | ok failed =>
    rw [dumpReply] at hres
    rw [hres]
    cases failed <;> rfl

/-- A dump either adds its file, or leaves the folder and the successful dumps as they were. -/
theorem dumpRecords_keepsLogs : KeepsLogs sourceName (dumpRecords env sourceName) := by
  intro w h
  by_cases henv : env.enableExpertRecording = true
  · rw [final_dumpRecords env sourceName henv]
    split
    · rename_i hres
      exact logsInv_writeLog sourceName h hres
    · rename_i hres
      exact logsInv_addCall sourceName h (by simp [successfulDumps, dumpCall, hres])
  · rw [dumpRecords, if_neg henv]
    exact h

theorem writeResponse_keepsLogs (item response : Json) (duration : NumLit) :
    KeepsLogs sourceName (writeResponse item response duration) := by
  unfold writeResponse
  split
  · refine keepsLogs_bind sourceName (keepsLogs_ofExcept sourceName _) fun hasChoices => ?_
    split
    · exact keepsLogs_bind sourceName (keepsLogs_ofExcept sourceName _) fun _ =>
        PyM.preserves_modify fun _ => id
    · exact keepsLogs_pure sourceName _
  · exact keepsLogs_pure sourceName _

theorem inferItem_keepsLogs (idx : ℕ) (item messages : Json) :
    KeepsLogs sourceName (inferItem env sourceName idx item messages) := by
  refine keepsLogs_bind sourceName
    (PyM.preserves_modify fun w h => logsInv_addCall sourceName h rfl) fun _ => ?_
  refine PyM.preserves_get_bind fun w => ?_
  refine keepsLogs_bind sourceName (keepsLogs_ofExcept sourceName _) (fun response => ?_) w
  refine keepsLogs_bind sourceName (writeResponse_keepsLogs sourceName item response _) fun _ => ?_
  split
  · exact dumpRecords_keepsLogs env sourceName
  · exact keepsLogs_pure sourceName _

theorem processItem_keepsLogs (processed : List Json.HashKey) (p : Json × ℕ) :
    KeepsLogs sourceName (processItem env sourceName processed p) := by
  refine keepsLogs_bind sourceName (keepsLogs_ofExcept sourceName _) fun pHash => ?_
  split
  · exact keepsLogs_pure sourceName _
  · exact keepsLogs_bind sourceName (keepsLogs_ofExcept sourceName _) fun messages =>
      PyM.preserves_suppress (inferItem_keepsLogs env sourceName p.2 p.1 messages)

/-- In every state a run ends in, the folder is what its successful dumps wrote. -/
theorem processSingleSource_keepsLogs (items : List Json) :
    KeepsLogs sourceName (processSingleSource env sourceName items) := by
  refine PyM.preserves_get_bind fun w => ?_
  refine keepsLogs_bind sourceName (manageRecording_keepsLogs env sourceName "start") (fun _ => ?_) w
  refine keepsLogs_bind sourceName (PyM.preserves_modify fun _ => id) fun _ => ?_
  refine keepsLogs_bind sourceName (PyM.preserves_forM (fun _ => id)
    (fun _ _ _ h h' hw => h' (h hw)) fun p _ => processItem_keepsLogs env sourceName _ p) fun _ => ?_
  refine keepsLogs_bind sourceName (dumpRecords_keepsLogs env sourceName) fun _ => ?_
  exact keepsLogs_bind sourceName (manageRecording_keepsLogs env sourceName "stop") fun _ =>
    keepsLogs_pure sourceName _

end

/-! ## What a reader of the folder gets -/

theorem kept_logWrites_iff (sourceName : String) (calls : List Call) :
    PyDict.Kept recordsOf (logWrites sourceName calls) ↔ SecondsDiffer (successfulDumps calls) := by
  rw [PyDict.Kept, logWrites, List.pairwise_map, SecondsDiffer]
  simp only [ne_eq, dumpName_inj]

theorem inOrder_logWrites_iff (sourceName : String) (calls : List Call) :
    PyDict.InOrder recordsOf (logWrites sourceName calls) ↔
      NamesIncrease sourceName (successfulDumps calls) := by
  rw [PyDict.InOrder, logWrites, List.pairwise_map, NamesIncrease]

/-- After a run that started with an empty folder: no record is lost if no dump that brought records
shares its second with a later one and the file names of the dumps that brought records increase. The
first condition is always necessary, the second when the server handed no record over twice. -/
theorem processSingleSource_noRecordLost (env : Env) (sourceName : String) (items : List Json)
    (outputFile : Option (List Char)) {w : World}
    (hrun : (processSingleSource env sourceName items).run { outputFile } = .ok ⟨⟩ w) :
    (SecondsDiffer (successfulDumps w.calls) ∧ NamesIncrease sourceName (successfulDumps w.calls) →
      NoRecordLost w) ∧
    (NoRecordLost w → SecondsDiffer (successfulDumps w.calls)) ∧
    (((successfulDumps w.calls).flatMap fun d => recordsOf d.2).Nodup →
      NoRecordLost w → NamesIncrease sourceName (successfulDumps w.calls)) := by
  have hinv : LogsInv sourceName w :=
    PyM.Preserves.of_run (processSingleSource_keepsLogs env sourceName items) hrun rfl
  have hread : (successfulDumps w.calls).flatMap (fun d => recordsOf d.2) =
      (logWrites sourceName w.calls).flatMap fun kv => recordsOf kv.2 := by
    rw [logWrites, List.flatMap_map]
  rw [NoRecordLost, readLogs, hinv, hread, ← kept_logWrites_iff sourceName,
    ← inOrder_logWrites_iff]
  exact ⟨fun h => PyDict.sortedConcat_writes recordsOf h.1 h.2,
    PyDict.kept_of_sortedConcat recordsOf, PyDict.inOrder_of_sortedConcat recordsOf⟩

/-- A server that hands its records over at the first dump and has none left for the next one. Its
start and stop endpoints answer with a text that is no JSON. -/
def sampleEnv (second : List Call → ℕ) : Env where
  http calls endpoint :=
    if endpoint = "dump_expert_distribution_record" then
      .response 200 [] (.ok (.obj [("records".toList,
        .arr (if (successfulDumps calls).isEmpty then [.str "pass".toList] else []))]))
    else .response 200 "ok".toList (.error "Expecting value".toList)
  chat _ := .ok (.obj [("choices".toList,
    .arr [.obj [("message".toList, .obj [("content".toList, .str "a".toList)])]])])
  latency _ := .ofNat 1
  second := second

/-- Twenty questions. -/
def sampleItems : List Json :=
  (List.range 20).map fun i => .obj [("question".toList, .num (.ofNat i))]

/-- The dump after the last of twenty items, and the final dump in a later second. -/
theorem processSingleSource_noRecordLost_sample :
    ∃ w, (processSingleSource (sampleEnv List.length) "aime" sampleItems).run {} = .ok ⟨⟩ w ∧
      NoRecordLost w :=
  ⟨_, rfl, (processSingleSource_noRecordLost (sampleEnv List.length) "aime" sampleItems none rfl).1
    ⟨by unfold SecondsDiffer; decide, by unfold NamesIncrease; decide⟩⟩

/-- With a clock that does not move between the two, the final dump overwrites the only file. -/
theorem processSingleSource_loses_records :
    (∀ calls calls', calls <+: calls' →
      (sampleEnv fun _ => 1700000000).second calls ≤ (sampleEnv fun _ => 1700000000).second calls') ∧
    ∃ w, (processSingleSource (sampleEnv fun _ => 1700000000) "aime" sampleItems).run {} =
        .ok ⟨⟩ w ∧ ¬ NoRecordLost w :=
  ⟨fun _ _ _ => le_rfl, _, rfl, by decide⟩

end MoeSpecialization.Client
