import MoeSpecialization.Recorder.Run

/-!
# Dumping the records of all data-parallel ranks

Reference: `_Communicator` and `dump_expert_distribution_record` in
`sglang/srt/managers/tokenizer_communicator_mixin.py`, `Scheduler.expert_distribution_handle` in
`sglang/srt/managers/scheduler.py`, `dump_expert_distribution_record_async` in
`sglang/srt/entrypoints/http_server.py`.

A request goes to every rank. Each rank answers when it gets to it, and the answers reach the
communicator in any order; the call returns once there are `fan_out` of them. A schedule is the list of
these events, and `FanOut` is what holds after every prefix of it.
-/

namespace MoeSpecialization.Recorder

open Py

/-! ## The scheduler's side -/

/-- `ExpertDistributionReqType`. -/
inductive ReqType where
  | startRecord | stopRecord | dumpRecord | getStatus
deriving DecidableEq

/-- The `data` of an `ExpertDistributionReqOutput`. -/
inductive ReqData where
  | dump (d : Dump)
  | status (st : Status)
deriving DecidableEq

/-- `ExpertDistributionReqOutput`. -/
structure ReqOutput where
  data : Option ReqData := none
deriving DecidableEq

/-- `Scheduler.expert_distribution_handle`. -/
def expertDistributionHandle (cfg : RecorderConfig) : ReqType → PyM RecorderState ReqOutput
  | .startRecord => do RecorderState.startRecord; pure {}
  | .stopRecord => do RecorderState.stopRecord; pure {}
  | .dumpRecord => do
    let data ← RecorderState.dumpRecord cfg
    pure { data := some (.dump data) }
  | .getStatus => do
    let data ← RecorderState.getStatus cfg
    pure { data := some (.status data) }

/-- A data-parallel rank between two forward passes: its recorder is in no layer. -/
structure Rank where
  cfg : RecorderConfig
  recorder : RecorderState
  idle : recorder.currentLayerIdx = none

/-- What a request does to an idle recorder: it never raises, leaves the recorder idle, and a dump
returns the records and clears them. -/
theorem run_expertDistributionHandle (cfg : RecorderConfig) (action : ReqType) {s : RecorderState}
    (hs : s.currentLayerIdx = none) :
    ∃ out s', (expertDistributionHandle cfg action).run s = .ok out s' ∧ s'.currentLayerIdx = none ∧
      (action = .dumpRecord → out = ⟨some (.dump (s.dump cfg))⟩ ∧ s'.records = []) := by
  cases action with
  | startRecord =>
    rw [expertDistributionHandle, PyM.run_bind_of_ok (run_startRecord hs)]
    exact ⟨_, _, rfl, hs, by simp⟩
  | stopRecord => exact ⟨_, _, rfl, hs, by simp⟩
  | dumpRecord =>
    rw [expertDistributionHandle, PyM.run_bind_of_ok (run_dumpRecord cfg hs)]
    exact ⟨_, _, rfl, hs, fun _ => ⟨rfl, rfl⟩⟩
  | getStatus =>
    obtain ⟨st, hst⟩ := run_getStatus cfg s
    rw [expertDistributionHandle, PyM.run_bind_of_ok hst]
    exact ⟨_, _, rfl, hs, by simp⟩

/-- An idle rank handles a request. -/
def Rank.handle (rank : Rank) (action : ReqType) : Rank × ReqOutput :=
  match h : (expertDistributionHandle rank.cfg action).run rank.recorder with
  | .ok out s => (⟨rank.cfg, s, by
      obtain ⟨out', s', hrun, hidle, -⟩ := run_expertDistributionHandle rank.cfg action rank.idle
      rw [hrun] at h
      cases h
      exact hidle⟩, out)
  | .error e s => absurd h (by
      obtain ⟨out', s', hrun, -⟩ := run_expertDistributionHandle rank.cfg action rank.idle
      rw [hrun]
      nofun)

/-- The records a rank has accumulated. -/
def Rank.records (rank : Rank) : List PassRecord := rank.recorder.records

theorem Rank.handle_dumpRecord (rank : Rank) :
    (rank.handle .dumpRecord).2 = ⟨some (.dump (rank.recorder.dump rank.cfg))⟩ ∧
      (rank.handle .dumpRecord).1.records = [] := by
  obtain ⟨out, s, hrun, -, hdump⟩ := run_expertDistributionHandle rank.cfg .dumpRecord rank.idle
  unfold Rank.handle
  split
  · rename_i h
    rw [hrun] at h
    cases h
    exact hdump rfl
  · rename_i h
    rw [hrun] at h
    cases h

/-! ## The communicator -/

/-- `_Communicator` in queueing mode. The flag of `resultEvent` is whether it is set; `readyQueue`
holds the callers that wait for their turn. -/
structure Communicator (τ : Type) where
  fanOut : ℕ
  resultEvent : Option Bool := none
  resultValues : Option (List τ) := none
  readyQueue : List ℕ := []

namespace Communicator

variable {τ : Type}

/-- `queueing_call` up to its second wait: `none` if the caller has to queue. -/
def beginCall (c : Communicator τ) : Option (Communicator τ) :=
  if c.resultEvent.isSome || c.readyQueue.length > 0 then none
  else some { c with resultEvent := some false, resultValues := some [] }

/-- `handle_recv`. -/
def handleRecv (recvObj : τ) : PyM (Communicator τ) Unit := do
  let c ← get
  match c.resultValues, c.resultEvent with
  | some vs, some set =>
    let vs := vs ++ [recvObj]
    modify fun c => { c with
      resultValues := some vs
      resultEvent := some (if vs.length = c.fanOut then true else set) }
  | _, _ => throw .attributeError

/-- `queueing_call` from its second wait on: `none` while the event is not set. -/
def endCall (c : Communicator τ) : Option (List τ × Communicator τ) :=
  match c.resultEvent, c.resultValues with
  | some true, some vs =>
    some (vs, { c with resultEvent := none, resultValues := none, readyQueue := c.readyQueue.tail })
  | _, _ => none

end Communicator

/-! ## One request to all ranks -/

/-- The ranks, the ranks that have the request in their socket, the answers on their way to the
tokenizer manager, and its communicator. -/
structure System where
  ranks : List Rank
  pending : List ℕ
  inFlight : List (ℕ × ReqOutput)
  comm : Communicator ReqOutput

/-- A rank answers, or its answer arrives. -/
inductive Event where
  | handle (r : ℕ)
  | deliver (r : ℕ)
deriving DecidableEq

namespace System

/-- The request is sent to all ranks. -/
def broadcast (ranks : List Rank) (comm : Communicator ReqOutput) : System where
  ranks := ranks
  pending := List.range ranks.length
  inFlight := []
  comm := comm

/-- One event; `none` if it cannot happen. -/
def step (action : ReqType) (s : System) : Event → Option System
  | .handle r =>
    match s.ranks[r]? with
    | some rank =>
      if r ∈ s.pending then
        some { s with
          ranks := s.ranks.set r (rank.handle action).1
          pending := s.pending.erase r
          inFlight := s.inFlight ++ [(r, (rank.handle action).2)] }
      else none
    | none => none
  | .deliver r =>
    match s.inFlight.find? (·.1 = r) with
    | some m =>
      match (Communicator.handleRecv m.2).run s.comm with
      | .ok _ comm => some { s with inFlight := s.inFlight.erase m, comm }
      | .error _ _ => none
    | none => none

/-- A schedule of events. -/
def exec (action : ReqType) (s : System) : List Event → Option System
  | [] => some s
  | e :: es => (s.step action e).bind fun s' => s'.exec action es

/-- Every rank has answered and every answer has arrived. -/
def Complete (s : System) : Prop := s.pending = [] ∧ s.inFlight = []

instance (s : System) : Decidable s.Complete := inferInstanceAs (Decidable (_ ∧ _))

end System

/-- The rank whose answer is the first to arrive. -/
def firstDelivered (events : List Event) : Option ℕ :=
  events.findSome? fun
    | .deliver r => some r
    | .handle _ => none

/-- `dump_expert_distribution_record` once the ranks have gone through a schedule: the answers are
`result`, and the call returns `result[0] if result else None`. -/
def dumpExpertDistributionRecord (s : System) : Option (Option ReqOutput) :=
  s.comm.endCall.map fun (result, _) => result.head?

/-- What the client gets. -/
inductive Response where
  | json (d : ReqData)
  | savedToFile
deriving DecidableEq

/-- `dump_expert_distribution_record_async`. -/
def dumpExpertDistributionRecordAsync : Option ReqOutput → Except Error Response
  | none => .error .attributeError
  | some result =>
    match result.data with
    | some d => .ok (.json d)
    | none => .ok .savedToFile

/-- The records of a response. -/
def Response.records : Response → List PassRecord
  | .json (.dump d) => d.records
  | _ => []

/-! ## What holds along a schedule -/

/-- The rank of a delivery. -/
def Event.delivered? : Event → Option ℕ
  | .deliver r => some r
  | .handle _ => none

/-- The invariant of a dump that was broadcast to `ranks`, with the answers that have arrived so far:
every rank is still to answer, or its answer is on the way, or it has arrived; an answer holds the
records its rank had at the start, and a rank that has answered has none left. -/
structure FanOut (ranks : List Rank) (arrived : List (ℕ × ReqOutput)) (s : System) : Prop where
  length_eq : s.ranks.length = ranks.length
  perm : (s.pending ++ (s.inFlight ++ arrived).map Prod.fst).Perm (List.range ranks.length)
  pending : ∀ r ∈ s.pending, s.ranks[r]? = ranks[r]?
  answered : ∀ m ∈ s.inFlight ++ arrived, ∃ rank rank', ranks[m.1]? = some rank ∧
    m.2 = ⟨some (.dump (rank.recorder.dump rank.cfg))⟩ ∧
    s.ranks[m.1]? = some rank' ∧ rank'.records = []
  fanOut : s.comm.fanOut = ranks.length
  values : s.comm.resultValues = some (arrived.map Prod.snd)
  event : s.comm.resultEvent = some (decide (arrived.length = ranks.length))

namespace FanOut

variable {ranks : List Rank} {arrived : List (ℕ × ReqOutput)} {s s' : System}

theorem broadcast {comm comm' : Communicator ReqOutput} (hne : ranks ≠ [])
    (hfan : comm.fanOut = ranks.length) (hbegin : comm.beginCall = some comm') :
    FanOut ranks [] (System.broadcast ranks comm') := by
  unfold Communicator.beginCall at hbegin
  split at hbegin
  · cases hbegin
  · cases hbegin
    refine ⟨rfl, by simp [System.broadcast], fun r _ => rfl, by simp [System.broadcast], hfan, rfl, ?_⟩
    have hpos : ¬ 0 = ranks.length := (List.length_pos_iff.mpr hne).ne
    simp [System.broadcast, hpos]

/-- No rank is counted twice. -/
theorem nodup (hinv : FanOut ranks arrived s) :
    (s.pending ++ (s.inFlight ++ arrived).map Prod.fst).Nodup :=
  hinv.perm.nodup_iff.mpr List.nodup_range

/-- A rank answers. -/
theorem step_handle {r : ℕ} (hinv : FanOut ranks arrived s)
    (hstep : s.step .dumpRecord (.handle r) = some s') : FanOut ranks arrived s' := by
  simp only [System.step] at hstep
  split at hstep
  next rank hrank =>
    split at hstep
    next hmem =>
      cases hstep
      obtain ⟨hout, hclear⟩ := rank.handle_dumpRecord
      have hlt : r < s.ranks.length := (List.getElem?_eq_some_iff.mp hrank).1
      have hnodup := hinv.nodup
      have hfresh : ∀ m ∈ s.inFlight ++ arrived, r ≠ m.1 := fun m hm =>
        (List.nodup_append.mp hnodup).2.2 r hmem m.1 (List.mem_map_of_mem hm)
      have hself : ranks[r]? = some rank := (hinv.pending r hmem).symm.trans hrank
      refine ⟨by simpa using hinv.length_eq, ?_, ?_, ?_, hinv.fanOut, hinv.values, hinv.event⟩
      -- the rank moves from the pending ones to those with an answer on the way
      · refine List.Perm.trans ?_ hinv.perm
        have herase : (r :: s.pending.erase r).Perm s.pending := (List.perm_cons_erase hmem).symm
        refine List.Perm.trans ?_ (herase.append_right _)
        simp only [List.map_append, List.map_cons, List.append_assoc, List.cons_append,
          List.nil_append]
        simpa using @List.perm_middle _ r (s.pending.erase r ++ s.inFlight.map Prod.fst)
          (arrived.map Prod.fst)
      · intro r' hr'
        have hpend := (List.nodup_append.mp hnodup).1
        have hne : r ≠ r' := by
          rintro rfl
          exact hpend.not_mem_erase hr'
        simpa [List.getElem?_set_ne hne] using hinv.pending r' (List.mem_of_mem_erase hr')
      · intro m hm
        have hcases : m ∈ s.inFlight ++ arrived ∨ m = (r, (rank.handle .dumpRecord).2) := by
          simp only [List.mem_append, List.mem_singleton] at hm ⊢
          tauto
        rcases hcases with hm | rfl
        · obtain ⟨rank₀, rank₁, h0, h1, h2, h3⟩ := hinv.answered m hm
          exact ⟨rank₀, rank₁, h0, h1, by simpa [List.getElem?_set_ne (hfresh m hm)] using h2, h3⟩
        · exact ⟨rank, _, hself, hout, List.getElem?_set_self hlt, hclear⟩
    next => cases hstep
  next => cases hstep

/-- An answer arrives. -/
theorem step_deliver {r : ℕ} (hinv : FanOut ranks arrived s)
    (hstep : s.step .dumpRecord (.deliver r) = some s') :
    ∃ m, m.1 = r ∧ FanOut ranks (arrived ++ [m]) s' := by
  simp only [System.step] at hstep
  split at hstep
  next m hfind =>
    have hmem : m ∈ s.inFlight := List.mem_of_find?_eq_some hfind
    have hr : m.1 = r := by simpa using List.find?_some hfind
    have hperm : (s.inFlight.erase m ++ (arrived ++ [m])).Perm (s.inFlight ++ arrived) := by
      refine List.Perm.trans ?_ ((List.perm_cons_erase hmem).symm.append_right _)
      simpa using @List.perm_middle _ m (s.inFlight.erase m ++ arrived) []
    -- before this answer there were fewer than `fan_out`, so the event was not set
    have hlen : arrived.length < ranks.length := by
      have h := hinv.perm.length_eq
      have hpos := List.length_pos_of_mem hmem
      simp only [List.length_append, List.length_map, List.length_range] at h
      omega
    refine ⟨m, hr, ?_⟩
    have hrecv : (Communicator.handleRecv m.2).run s.comm = .ok () { s.comm with
        resultValues := some ((arrived ++ [m]).map Prod.snd)
        resultEvent := some (decide ((arrived ++ [m]).length = ranks.length)) } := by
      rw [Communicator.handleRecv, PyM.run_bind_of_ok (PyM.run_get _), hinv.values, hinv.event]
      simp only [PyM.run_modify, hinv.fanOut, List.length_append, List.length_map, List.map_append,
        List.length_singleton, List.map_cons, List.map_nil, decide_eq_false hlen.ne]
      congr 2
    rw [hrecv] at hstep
    cases hstep
    refine ⟨hinv.length_eq, ?_, hinv.pending, ?_, hinv.fanOut, rfl, rfl⟩
    · exact ((hperm.map _).append_left _).trans hinv.perm
    · exact fun m' hm' => hinv.answered m' (hperm.mem_iff.mp hm')
  next => cases hstep

/-- The run lemma: the answers arrive in the order of the deliveries. -/
theorem exec {events : List Event} (hinv : FanOut ranks arrived s)
    (hexec : s.exec .dumpRecord events = some s') :
    ∃ more, more.map Prod.fst = events.filterMap Event.delivered? ∧
      FanOut ranks (arrived ++ more) s' := by
  induction events generalizing s arrived with
  | nil =>
    cases hexec
    exact ⟨[], rfl, by simpa using hinv⟩
  | cons e es ih =>
    obtain ⟨t, ht, hrest⟩ := Option.bind_eq_some_iff.mp hexec
    cases e with
    | handle r => exact ih (hinv.step_handle ht) hrest
    | deliver r =>
      obtain ⟨m, rfl, hm⟩ := hinv.step_deliver ht
      obtain ⟨more, hmore, hinv'⟩ := ih hm hrest
      exact ⟨m :: more, by simp [hmore, Event.delivered?], by simpa using hinv'⟩

/-- A schedule can go on until every answer has arrived. -/
theorem progress (hinv : FanOut ranks arrived s) (hs : ¬ s.Complete) :
    ∃ e s', s.step .dumpRecord e = some s' := by
  by_cases hpend : s.pending = []
  · obtain ⟨m, hm⟩ := List.exists_mem_of_ne_nil _ fun h => hs ⟨hpend, h⟩
    refine ⟨.deliver m.1, ?_⟩
    have hfind : (s.inFlight.find? (·.1 = m.1)).isSome := by simpa using ⟨m.2, hm⟩
    obtain ⟨m', hm'⟩ := Option.isSome_iff_exists.mp hfind
    simp only [System.step, hm', Communicator.handleRecv, PyM.run_bind_of_ok (PyM.run_get _),
      hinv.values, hinv.event, PyM.run_modify]
    exact ⟨_, rfl⟩
  · obtain ⟨r, hr⟩ := List.exists_mem_of_ne_nil _ hpend
    have hlt : r < s.ranks.length := by
      rw [hinv.length_eq, ← List.mem_range, ← hinv.perm.mem_iff]
      exact List.mem_append_left _ hr
    refine ⟨.handle r, ?_⟩
    simp only [System.step, List.getElem?_eq_getElem hlt, if_pos hr]
    exact ⟨_, rfl⟩

/-- When the last answer has arrived, the call returns the answer that arrived first, and no rank has
any record left. -/
theorem returns {events : List Event} (hne : ranks ≠ [])
    (hids : arrived.map Prod.fst = events.filterMap Event.delivered?)
    (hinv : FanOut ranks arrived s) (hs : s.Complete) :
    ∃ r rank, firstDelivered events = some r ∧ ranks[r]? = some rank ∧
      dumpExpertDistributionRecord s = some (some ⟨some (.dump (rank.recorder.dump rank.cfg))⟩) ∧
      ∀ rank' ∈ s.ranks, rank'.records = [] := by
  obtain ⟨hpend, hfly⟩ := hs
  have hperm : (arrived.map Prod.fst).Perm (List.range ranks.length) := by
    simpa [hpend, hfly] using hinv.perm
  have hlen : arrived.length = ranks.length := by simpa using hperm.length_eq
  obtain ⟨m, rest, rfl⟩ := List.exists_cons_of_length_pos
    (hlen ▸ List.length_pos_iff.mpr hne : 0 < arrived.length)
  obtain ⟨rank, -, hrank, hout, -⟩ := hinv.answered m (by simp)
  refine ⟨m.1, rank, ?_, hrank, ?_, ?_⟩
  · have hhead := congrArg List.head? hids
    rw [List.map_cons, List.head?_cons, List.head?_filterMap] at hhead
    rw [firstDelivered, hhead]
    congr 1
  · have hset := hinv.event
    rw [decide_eq_true hlen] at hset
    simp [dumpExpertDistributionRecord, Communicator.endCall, hset, hinv.values, hout]
  · intro rank' hrank'
    obtain ⟨r, hr, rfl⟩ := List.mem_iff_getElem.mp hrank'
    have hmem : r ∈ (m :: rest).map Prod.fst := by
      rw [hperm.mem_iff, List.mem_range, ← hinv.length_eq]
      exact hr
    obtain ⟨m', hm', rfl⟩ := List.mem_map.mp hmem
    obtain ⟨-, rank₁, -, -, hget, hclear⟩ := hinv.answered m' (List.mem_append_right _ hm')
    rw [List.getElem?_eq_getElem hr, Option.some.injEq] at hget
    rwa [hget]

end FanOut

/-- The records of one rank are those of all ranks if and only if the other ranks have none. -/
theorem perm_flatMap_records_iff {ranks : List Rank} {r : ℕ} {rank : Rank}
    (hrank : ranks[r]? = some rank) :
    rank.records.Perm (ranks.flatMap Rank.records) ↔
      ∀ r' rank', ranks[r']? = some rank' → r' ≠ r → rank'.records = [] := by
  obtain ⟨before, after, rfl, rfl⟩ :
      ∃ before after, ranks = before ++ rank :: after ∧ before.length = r := by
    obtain ⟨hlt, rfl⟩ := List.getElem?_eq_some_iff.mp hrank
    exact ⟨ranks.take r, ranks.drop (r + 1), by simp, by simp [hlt.le]⟩
  constructor
  · intro hperm r' rank' hget hne
    have hlen := hperm.length_eq
    simp only [List.flatMap_append, List.flatMap_cons, List.length_append] at hlen
    have hbefore : before.flatMap Rank.records = [] := List.length_eq_zero_iff.mp (by omega)
    have hafter : after.flatMap Rank.records = [] := List.length_eq_zero_iff.mp (by omega)
    rw [List.flatMap_eq_nil_iff] at hbefore hafter
    rcases Nat.lt_or_gt_of_ne hne with hlt | hlt
    · rw [List.getElem?_append_left hlt] at hget
      exact hbefore rank' (List.mem_of_getElem? hget)
    · rw [List.getElem?_append_right hlt.le, List.getElem?_cons, if_neg (by omega)] at hget
      exact hafter rank' (List.mem_of_getElem? hget)
  · intro h
    have hbefore : before.flatMap Rank.records = [] := by
      refine List.flatMap_eq_nil_iff.mpr fun rank' hmem => ?_
      obtain ⟨i, hi, rfl⟩ := List.mem_iff_getElem.mp hmem
      exact h i _ (by rw [List.getElem?_append_left hi, List.getElem?_eq_getElem]) hi.ne
    have hafter : after.flatMap Rank.records = [] := by
      refine List.flatMap_eq_nil_iff.mpr fun rank' hmem => ?_
      obtain ⟨i, hi, rfl⟩ := List.mem_iff_getElem.mp hmem
      refine h (before.length + (i + 1)) _ ?_ (by omega)
      rw [List.getElem?_append_right (by omega), Nat.add_sub_cancel_left, List.getElem?_cons_succ,
        List.getElem?_eq_getElem]
    simp [List.flatMap_append, List.flatMap_cons, hbefore, hafter]

/-- **What a dump returns.** For every set of ranks and every schedule in which all of them answer and
all answers arrive, the call returns and every rank has cleared its records; the caller has got the
records of all ranks if and only if every rank had none, but for the one whose answer arrived
first. -/
theorem dump_returns_all_iff {ranks : List Rank} {comm comm' : Communicator ReqOutput}
    {events : List Event} {s : System} (hne : ranks ≠ []) (hfan : comm.fanOut = ranks.length)
    (hbegin : comm.beginCall = some comm')
    (hexec : (System.broadcast ranks comm').exec .dumpRecord events = some s) (hs : s.Complete) :
    ∃ out resp, dumpExpertDistributionRecord s = some out ∧
      dumpExpertDistributionRecordAsync out = .ok resp ∧ (∀ rank ∈ s.ranks, rank.records = []) ∧
      (resp.records.Perm (ranks.flatMap Rank.records) ↔
        ∀ r rank, ranks[r]? = some rank → firstDelivered events ≠ some r → rank.records = []) := by
  obtain ⟨arrived, hids, hinv⟩ := (FanOut.broadcast hne hfan hbegin).exec hexec
  obtain ⟨r, rank, hfirst, hrank, hout, hclear⟩ := FanOut.returns hne hids hinv hs
  refine ⟨_, _, hout, rfl, hclear, ?_⟩
  rw [hfirst]
  refine (perm_flatMap_records_iff hrank).trans ?_
  simp only [ne_eq, Option.some.injEq, eq_comm]

/-- A rank after a run of its recorder. -/
def Rank.ofRun (cfg : RecorderConfig) (ops : List Op) (htok : ∀ op ∈ ops, op.HasTokens) : Rank where
  cfg := cfg
  recorder := (run cfg (.init cfg) ops).1
  idle := (run_sim cfg (sim_init cfg) htok).layerIdx

/-- A rank that has recorded the given passes. -/
def sampleRank (ids : List ℕ) : Rank :=
  Rank.ofRun sampleConfig (.startRecord :: ids.map fun i => .forwardPass (samplePass i none)) (by
    simp [samplePass, Op.HasTokens])

/-- The two ranks after a dump, with the answer of the second one overtaking that of the first. -/
def sampleDump (ids ids' : List ℕ) : Option System :=
  (System.broadcast [sampleRank ids, sampleRank ids'] ⟨2, some false, some [], []⟩).exec .dumpRecord
    [.handle 0, .handle 1, .deliver 1, .deliver 0]

theorem dump_returns_all_iff_sample :
    ∃ s out resp, sampleDump [] [1, 2] = some s ∧ dumpExpertDistributionRecord s = some out ∧
      dumpExpertDistributionRecordAsync out = .ok resp ∧
      resp.records.Perm ([sampleRank [], sampleRank [1, 2]].flatMap Rank.records) := by
  have hexec : sampleDump [] [1, 2] = some ((sampleDump [] [1, 2]).get rfl) := rfl
  have hbegin : (⟨2, none, none, []⟩ : Communicator ReqOutput).beginCall =
      some ⟨2, some false, some [], []⟩ := rfl
  obtain ⟨out, resp, hout, hresp, -, hiff⟩ :=
    dump_returns_all_iff (by simp) rfl hbegin hexec ⟨rfl, rfl⟩
  refine ⟨_, out, resp, hexec, hout, hresp, hiff.mpr ?_⟩
  rintro (_ | _ | r) rank hrank hfirst
  · cases hrank
    rfl
  · exact absurd rfl hfirst
  · cases hrank

/-- Two ranks with a record each: the caller gets one of the two records, and both ranks are cleared. -/
theorem dump_loses_rank :
    ∃ s out resp, sampleDump [1] [2] = some s ∧ s.Complete ∧
      dumpExpertDistributionRecord s = some out ∧ dumpExpertDistributionRecordAsync out = .ok resp ∧
      s.ranks.flatMap Rank.records = [] ∧
      ¬ resp.records.Perm ([sampleRank [1], sampleRank [2]].flatMap Rank.records) := by
  refine ⟨(sampleDump [1] [2]).get rfl, _, _, rfl, ⟨rfl, rfl⟩, rfl, rfl, rfl, ?_⟩
  intro hperm
  exact absurd hperm.length_eq (by decide)

end MoeSpecialization.Recorder
