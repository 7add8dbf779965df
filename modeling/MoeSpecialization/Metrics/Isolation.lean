import MoeSpecialization.Metrics.Sequences
import Mathlib.Data.Finset.Card

/-!
# Isolation of requests

Reference: `extract_expert_sequences_by_request` in `metric/utils/compute_expert_metrics.py`.

A line without `request_id` is filed under the number of its prompt, counted from `0` in the order of
first appearance, in the same dictionary as the lines that have a `request_id`. The sequences keep the
requests apart if and only if no two lines meet there: a line of request `r` and a line that has the
`r`-th prompt, both with experts on one layer (`requests_isolated_iff`).
-/

namespace MoeSpecialization.Metrics

open Py Postprocess

namespace ComputeExpertMetrics

/-! ## What isolation means -/

/-- The prompt that identifies a line without `request_id`. -/
def promptOf (record : OutputRecord) : Option Json :=
  match record.requestId, record.prompt with
  | none, some .null => none
  | none, some prompt => some prompt
  | _, _ => none

/-- A line belongs to some request. -/
def HasIdentity (record : OutputRecord) : Prop := record.requestId.isSome ∨ (promptOf record).isSome

/-- Two lines belong to one request: equal `request_id`s, or none and equal prompts. -/
def SameRequest (a b : OutputRecord) : Prop :=
  (∃ r, a.requestId = some r ∧ b.requestId = some r) ∨
    ∃ p q k, promptOf a = some p ∧ promptOf b = some q ∧ p.hashKey = .ok k ∧ q.hashKey = .ok k

/-- The lines are filed under `keys` in `seqs`: every sequence has the first experts of its lines in file
order, every line that belongs to a request is filed, and two lines that meet in a sequence belong to one
request. -/
structure Isolated (records : List OutputRecord) (seqs : Sequences) (keys : List (Option ℕ)) : Prop where
  length : keys.length = records.length
  seq : ∀ r l, seqs.seq r l =
    ((records.zip keys).filter (·.2 = some r)).flatMap fun p => primaryExperts p.1 l
  kept : ∀ p ∈ records.zip keys, p.2.isSome ↔ HasIdentity p.1
  apart : ∀ p ∈ records.zip keys, ∀ q ∈ records.zip keys, ∀ l, p.2.isSome → p.2 = q.2 →
    primaryExperts p.1 l ≠ [] → primaryExperts q.1 l ≠ [] → SameRequest p.1 q.1

/-- The extraction returns and keeps the requests apart. -/
def RequestsIsolated (records : List OutputRecord) : Prop :=
  ∃ seqs keys, extractExpertSequencesByRequest records = .ok seqs ∧ Isolated records seqs keys

/-- The prompts that identify lines can be keys of a dictionary. -/
def PromptsHashable (records : List OutputRecord) : Prop :=
  ∀ record ∈ records, ∀ prompt, promptOf record = some prompt → ∃ k, prompt.hashKey = .ok k

/-- The prompts that identify lines, in the order of first appearance. -/
def distinctPrompts (records : List OutputRecord) : List Json.HashKey :=
  (records.filterMap fun record => (promptOf record).bind fun prompt =>
    prompt.hashKey.toOption).eraseDups

/-- A line of request `r` and a line that has the `r`-th prompt, with experts on a common layer. -/
def PromptMeetsRequest (records : List OutputRecord) : Prop :=
  ∃ a ∈ records, ∃ b ∈ records, ∃ r prompt k l, a.requestId = some r ∧ promptOf b = some prompt ∧
    prompt.hashKey = .ok k ∧ (distinctPrompts records)[r]? = some k ∧
    primaryExperts a l ≠ [] ∧ primaryExperts b l ≠ []

/-! ## Identities and their keys -/

/-- What identifies a request. -/
inductive Identity where
  | request (requestId : ℕ)
  | prompt (key : Json.HashKey)
deriving DecidableEq

/-- The request of a line. -/
def identity (record : OutputRecord) : Option Identity :=
  match record.requestId with
  | some r => some (.request r)
  | none => ((promptOf record).bind fun prompt => prompt.hashKey.toOption).map .prompt

/-- The key under which a request is filed, given the distinct prompts. -/
def idKey (prompts : List Json.HashKey) : Identity → ℕ
  | .request r => r
  | .prompt k => prompts.idxOf k

/-- The key under which a line is filed. -/
def fileKey (prompts : List Json.HashKey) (record : OutputRecord) : Option ℕ :=
  (identity record).map (idKey prompts)

/-- A line is one of three kinds. -/
theorem identity_cases (record : OutputRecord)
    (h : ∀ prompt, promptOf record = some prompt → ∃ k, prompt.hashKey = .ok k) :
    (∃ r, record.requestId = some r ∧ promptOf record = none ∧ identity record = some (.request r)) ∨
    (∃ prompt k, record.requestId = none ∧ promptOf record = some prompt ∧ prompt.hashKey = .ok k ∧
      identity record = some (.prompt k)) ∨
    (record.requestId = none ∧ promptOf record = none ∧ identity record = none) := by
  cases hid : record.requestId with
  | some r =>
    refine .inl ⟨r, rfl, ?_, by rw [identity, hid]⟩
    rw [promptOf, hid]
  | none =>
    cases hprompt : promptOf record with
    | none => exact .inr (.inr ⟨rfl, rfl, by rw [identity, hid, hprompt]; rfl⟩)
    | some prompt =>
      obtain ⟨k, hk⟩ := h prompt hprompt
      refine .inr (.inl ⟨prompt, k, rfl, rfl, hk, ?_⟩)
      simp [identity, hid, hprompt, hk, Except.toOption]

section Hashable

variable {records : List OutputRecord} (hashable : PromptsHashable records)

include hashable

theorem hasIdentity_iff {record : OutputRecord} (hmem : record ∈ records) :
    HasIdentity record ↔ (identity record).isSome := by
  rcases identity_cases record (hashable record hmem) with
    ⟨r, hr, hp, hid⟩ | ⟨prompt, k, hr, hp, -, hid⟩ | ⟨hr, hp, hid⟩
  all_goals simp [HasIdentity, hr, hp, hid]

theorem sameRequest_iff {a b : OutputRecord} (ha : a ∈ records) (hb : b ∈ records) :
    SameRequest a b ↔ (identity a).isSome ∧ identity a = identity b := by
  rcases identity_cases a (hashable a ha) with
    ⟨r, hr, hp, hid⟩ | ⟨prompt, k, hr, hp, hk, hid⟩ | ⟨hr, hp, hid⟩ <;>
  rcases identity_cases b (hashable b hb) with
    ⟨r', hr', hp', hid'⟩ | ⟨prompt', k', hr', hp', hk', hid'⟩ | ⟨hr', hp', hid'⟩
  · simp [SameRequest, hr, hp, hid, hr', hp', hid', eq_comm]
  · simp [SameRequest, hr, hp, hid, hr', hp', hid']
  · simp [SameRequest, hr, hp, hid, hr', hp', hid']
  · simp [SameRequest, hr, hp, hid, hr', hp', hid']
  · simp [SameRequest, hr, hp, hid, hr', hp', hid', hk, hk', eq_comm]
  · simp [SameRequest, hr, hp, hid, hr', hp', hid']
  · simp [SameRequest, hr, hp, hid, hr', hp', hid']
  · simp [SameRequest, hr, hp, hid, hr', hp', hid']
  · simp [SameRequest, hr, hp, hid, hr', hp', hid']

theorem mem_distinctPrompts {record : OutputRecord} (hmem : record ∈ records) {k : Json.HashKey}
    (hid : identity record = some (.prompt k)) : k ∈ distinctPrompts records := by
  rcases identity_cases record (hashable record hmem) with
    ⟨r, -, -, hid'⟩ | ⟨prompt, k', -, hp, hk, hid'⟩ | ⟨-, -, hid'⟩
  · simp [hid] at hid'
  · rw [hid, Option.some.injEq, Identity.prompt.injEq] at hid'
    subst hid'
    refine List.mem_eraseDups.mpr (List.mem_filterMap.mpr ⟨record, hmem, ?_⟩)
    simp [hp, hk, Except.toOption]
  · simp [hid] at hid'

end Hashable

/-! ## What the loop computes -/

theorem seq_add (s : Extraction) (r r' : ℕ) (record : OutputRecord) (l : ℤ) :
    (s.add r record).requestSequences.seq r' l =
      s.requestSequences.seq r' l ++ if r' = r then primaryExperts record l else [] := by
  rw [Extraction.add]
  split
  · rename_i hempty
    simp [primaryExperts, hempty]
  · exact seq_pushLayers record s.requestSequences r r' l

theorem Extraction.add_nextPromptId (s : Extraction) (r : ℕ) (record : OutputRecord) :
    (s.add r record).nextPromptId = s.nextPromptId := by
  rw [Extraction.add]
  split <;> rfl

theorem Extraction.add_promptToId (s : Extraction) (r : ℕ) (record : OutputRecord) :
    (s.add r record).promptToId = s.promptToId := by
  rw [Extraction.add]
  split <;> rfl

theorem extractRecord_of_prompt {record : OutputRecord} {prompt : Json}
    (hr : record.requestId = none) (hp : promptOf record = some prompt) (s : Extraction) :
    extractRecord s record = promptId s prompt >>= fun p => .ok (p.2.add p.1 record) := by
  unfold promptOf at hp
  unfold extractRecord
  rw [hr] at hp ⊢
  split at hp <;> simp_all

theorem extractRecord_of_none {record : OutputRecord} (hr : record.requestId = none)
    (hp : promptOf record = none) (s : Extraction) : extractRecord s record = .ok s := by
  cases hprompt : record.prompt with
  | none => simp only [extractRecord, hr, hprompt]
  | some prompt =>
    cases prompt with
    | null => simp only [extractRecord, hr, hprompt]
    | _ => simp [promptOf, hr, hprompt] at hp

/-- The variables after some lines: the distinct prompts are numbered in order, and the sequences have
the lines filed under the keys of their requests. -/
structure Extraction.After (records : List OutputRecord) (s : Extraction) : Prop where
  nextPromptId : s.nextPromptId = (distinctPrompts records).length
  promptToId : ∀ k, s.promptToId.get? k =
    if k ∈ distinctPrompts records then some ((distinctPrompts records).idxOf k) else none
  seq : ∀ r l, s.requestSequences.seq r l =
    (records.filter (fileKey (distinctPrompts records) · = some r)).flatMap (primaryExperts · l)

theorem eraseDups_concat {α : Type} [DecidableEq α] (xs : List α) (x : α) :
    (xs ++ [x]).eraseDups = xs.eraseDups ++ if x ∈ xs then [] else [x] := by
  rw [List.eraseDups_append, List.removeAll, List.filter_singleton]
  by_cases hmem : x ∈ xs
  · rw [if_pos hmem, List.elem_iff.mpr hmem]
    rfl
  · rw [if_neg hmem, Bool.eq_false_iff.mpr fun h => hmem (List.elem_iff.mp h)]
    rfl

theorem nodup_eraseDups {α : Type} [DecidableEq α] (xs : List α) : xs.eraseDups.Nodup := by
  induction xs using List.reverseRecOn with
  | nil => exact List.nodup_nil
  | append_singleton xs x ih =>
    rw [eraseDups_concat]
    split
    · simpa
    · rename_i hmem
      exact List.nodup_append.mpr ⟨ih, by simp, fun a ha b hb hab => hmem (by simp_all)⟩

/-- One more line keeps the keys of the earlier ones. -/
theorem distinctPrompts_concat (records : List OutputRecord) (record : OutputRecord) :
    (promptOf record = none → distinctPrompts (records ++ [record]) = distinctPrompts records) ∧
    ∀ prompt k, promptOf record = some prompt → prompt.hashKey = .ok k →
      distinctPrompts (records ++ [record]) =
        distinctPrompts records ++ if k ∈ distinctPrompts records then [] else [k] := by
  simp only [distinctPrompts, List.filterMap_append, List.mem_eraseDups]
  constructor
  · intro hnone
    simp [hnone]
  · intro prompt k hprompt hk
    have hlast : [record].filterMap (fun record => (promptOf record).bind fun prompt =>
        prompt.hashKey.toOption) = [k] := by
      simp [hprompt, hk, Except.toOption]
    rw [hlast, eraseDups_concat]

/-- A line of known identity is appended to the sequences of its key. -/
theorem Extraction.After.seq_concat {records : List OutputRecord} {record : OutputRecord}
    {s : Extraction} (h : s.After records) (hashable : PromptsHashable records)
    {prompts : List Json.HashKey} (hprompts : distinctPrompts records <+: prompts) (r : ℕ) (l : ℤ) :
    ((records ++ [record]).filter (fileKey prompts · = some r)).flatMap (primaryExperts · l) =
      s.requestSequences.seq r l ++
        if fileKey prompts record = some r then primaryExperts record l else [] := by
  obtain ⟨more, rfl⟩ := hprompts
  have hold : ∀ old ∈ records,
      fileKey (distinctPrompts records ++ more) old = fileKey (distinctPrompts records) old := by
    intro old hmem
    rw [fileKey, fileKey]
    cases hid : identity old with
    | none => rfl
    | some i =>
      cases i with
      | request r => rfl
      | prompt k =>
        have hk := mem_distinctPrompts hashable hmem hid
        simp only [Option.map_some, idKey, List.idxOf_append_of_mem hk]
  rw [List.filter_append, List.flatMap_append, h.seq]
  congr 1
  · rw [List.filter_congr fun old hmem => by rw [hold old hmem]]
  · by_cases hkey : fileKey (distinctPrompts records ++ more) record = some r
    · simp [hkey]
    · simp [hkey]

section Step

variable {records : List OutputRecord} {record : OutputRecord} {s : Extraction}

/-- A line that brings no new prompt is appended under its key. -/
theorem Extraction.After.add (h : s.After records) (hashable : PromptsHashable records)
    (hprompts : distinctPrompts (records ++ [record]) = distinctPrompts records) {r : ℕ}
    (hkey : fileKey (distinctPrompts records) record = some r) :
    (s.add r record).After (records ++ [record]) := by
  refine ⟨?_, ?_, fun r' l => ?_⟩
  · rw [hprompts, s.add_nextPromptId, h.nextPromptId]
  · rw [hprompts, s.add_promptToId]
    exact h.promptToId
  · rw [hprompts, h.seq_concat hashable List.prefix_rfl, seq_add, hkey]
    simp only [Option.some.injEq, eq_comm]

/-- A prompt that is met for the first time gets the next number. -/
theorem Extraction.After.addPrompt (h : s.After records) (hashable : PromptsHashable records)
    {k : Json.HashKey} (hnew : k ∉ distinctPrompts records)
    (hprompts : distinctPrompts (records ++ [record]) = distinctPrompts records ++ [k])
    (hid : identity record = some (.prompt k)) :
    (Extraction.add { s with
      promptToId := s.promptToId.set k s.nextPromptId
      nextPromptId := s.nextPromptId + 1 } s.nextPromptId record).After (records ++ [record]) := by
  have hidx : (distinctPrompts records ++ [k]).idxOf k = s.nextPromptId := by
    rw [List.idxOf_append_of_notMem hnew, h.nextPromptId]
    simp
  refine ⟨?_, fun j => ?_, fun r' l => ?_⟩
  · rw [hprompts, Extraction.add_nextPromptId, h.nextPromptId, List.length_append,
      List.length_singleton]
  · rw [hprompts, Extraction.add_promptToId, PyDict.get?_set, h.promptToId]
    by_cases hj : j = k
    · subst hj
      simp [hidx]
    · by_cases hjmem : j ∈ distinctPrompts records
      · simp [hj, hjmem, List.idxOf_append_of_mem hjmem]
      · simp [hj, hjmem]
  · rw [hprompts, h.seq_concat hashable (List.prefix_append _ _), seq_add, fileKey, hid]
    simp [idKey, hidx, eq_comm]

/-- The step of the loop. -/
theorem Extraction.After.step (h : s.After records) (hashable : PromptsHashable (records ++ [record])) :
    ∃ s', extractRecord s record = .ok s' ∧ s'.After (records ++ [record]) := by
  have hashable' : PromptsHashable records := fun old hmem => hashable old (by simp [hmem])
  have hconcat := distinctPrompts_concat records record
  rcases identity_cases record (hashable record (by simp)) with
    ⟨r, hr, hp, hid⟩ | ⟨prompt, k, hr, hp, hk, hid⟩ | ⟨hr, hp, hid⟩
  · refine ⟨s.add r record, by rw [extractRecord, hr], ?_⟩
    exact h.add hashable' (hconcat.1 hp) (by rw [fileKey, hid]; rfl)
  · rw [extractRecord_of_prompt hr hp, promptId, hk]
    have hprompts := hconcat.2 prompt k hp hk
    by_cases hmem : k ∈ distinctPrompts records
    · rw [if_pos hmem, List.append_nil] at hprompts
      have hget : s.promptToId.get? k = some ((distinctPrompts records).idxOf k) := by
        rw [h.promptToId, if_pos hmem]
      refine ⟨s.add ((distinctPrompts records).idxOf k) record, ?_, ?_⟩
      · simp only [bind, Except.bind, hget]
      · exact h.add hashable' hprompts (by rw [fileKey, hid]; rfl)
    · rw [if_neg hmem] at hprompts
      have hget : s.promptToId.get? k = none := by rw [h.promptToId, if_neg hmem]
      refine ⟨_, ?_, h.addPrompt hashable' hmem hprompts hid⟩
      simp only [bind, Except.bind, hget]
  · refine ⟨s, extractRecord_of_none hr hp s, ?_, ?_, fun r' l => ?_⟩
    · rw [hconcat.1 hp, h.nextPromptId]
    · rw [hconcat.1 hp]
      exact h.promptToId
    · rw [hconcat.1 hp, h.seq_concat hashable' List.prefix_rfl, fileKey, hid]
      simp

end Step

/-- The loop over the lines. -/
theorem foldlM_extractRecord {records : List OutputRecord} (hashable : PromptsHashable records) :
    ∃ s : Extraction, records.foldlM extractRecord {} = .ok s ∧ s.After records := by
  induction records using List.reverseRecOn with
  | nil => exact ⟨{}, rfl, rfl, fun k => rfl, fun r l => rfl⟩
  | append_singleton records record ih =>
    obtain ⟨s, hs, hafter⟩ := ih fun old hmem => hashable old (by simp [hmem])
    obtain ⟨s', hs', hafter'⟩ := hafter.step hashable
    refine ⟨s', ?_, hafter'⟩
    rw [List.foldlM_append, hs]
    show [record].foldlM extractRecord s = .ok s'
    rw [List.foldlM_cons, hs']
    rfl

/-- A prompt that is no key of a dictionary makes the loop raise. -/
theorem promptsHashable_of_foldlM {records : List OutputRecord} {s : Extraction}
    (h : records.foldlM extractRecord {} = .ok s) : PromptsHashable records := by
  induction records using List.reverseRecOn generalizing s with
  | nil => exact fun record hmem => absurd hmem List.not_mem_nil
  | append_singleton records record ih =>
    rw [List.foldlM_append] at h
    obtain ⟨s', hs', h⟩ := except_bind_eq_ok.mp h
    intro old hmem prompt hprompt
    rcases List.mem_append.mp hmem with hmem | hmem
    · exact ih hs' old hmem prompt hprompt
    · obtain rfl := List.mem_singleton.mp hmem
      have hr : old.requestId = none := by
        cases hr : old.requestId with
        | none => rfl
        | some r => simp [promptOf, hr] at hprompt
      rw [List.foldlM_cons, extractRecord_of_prompt hr hprompt] at h
      obtain ⟨s'', h, -⟩ := except_bind_eq_ok.mp h
      obtain ⟨p, hp, -⟩ := except_bind_eq_ok.mp h
      rw [promptId] at hp
      obtain ⟨k, hk, -⟩ := except_bind_eq_ok.mp hp
      exact ⟨k, hk⟩

/-! ## When the requests are kept apart -/

/-- Two requests with one key are a request and a prompt. -/
theorem promptMeetsRequest_of_idKey {records : List OutputRecord} (hashable : PromptsHashable records)
    {a b : OutputRecord} (ha : a ∈ records) (hb : b ∈ records) {i j : Identity}
    (hi : identity a = some i) (hj : identity b = some j) (hne : i ≠ j)
    (hkey : idKey (distinctPrompts records) i = idKey (distinctPrompts records) j) {l : ℤ}
    (hla : primaryExperts a l ≠ []) (hlb : primaryExperts b l ≠ []) : PromptMeetsRequest records := by
  -- the line of the request first, the line of the prompt second
  have key : ∀ {a b : OutputRecord}, a ∈ records → b ∈ records → ∀ {r k},
      identity a = some (.request r) → identity b = some (.prompt k) →
      r = (distinctPrompts records).idxOf k → primaryExperts a l ≠ [] → primaryExperts b l ≠ [] →
      PromptMeetsRequest records := by
    intro a b ha hb r k hida hidb hrk hla hlb
    rcases identity_cases a (hashable a ha) with
      ⟨r', hr, -, hida'⟩ | ⟨_, _, -, -, -, hida'⟩ | ⟨-, -, hida'⟩ <;>
      rw [hida] at hida' <;> cases hida'
    rcases identity_cases b (hashable b hb) with
      ⟨_, -, -, hidb'⟩ | ⟨prompt, k', -, hp, hk, hidb'⟩ | ⟨-, -, hidb'⟩ <;>
      rw [hidb] at hidb' <;> cases hidb'
    refine ⟨a, ha, b, hb, r, prompt, k, l, hr, hp, hk, ?_, hla, hlb⟩
    have hmem := mem_distinctPrompts hashable hb hidb
    rw [hrk, List.getElem?_eq_getElem (List.idxOf_lt_length_of_mem hmem)]
    simp
  cases i with
  | request r =>
    cases j with
    | request r' => exact absurd (congrArg Identity.request hkey) hne
    | prompt k => exact key ha hb hi hj hkey hla hlb
  | prompt k =>
    cases j with
    | request r => exact key hb ha hj hi hkey.symm hlb hla
    | prompt k' =>
      have hk := mem_distinctPrompts hashable ha hi
      refine absurd (congrArg Identity.prompt ?_) hne
      exact (List.idxOf_inj hk).mp hkey

/-- If no prompt meets a request, the keys of the lines keep the requests apart. -/
theorem isolated_of_not_promptMeetsRequest {records : List OutputRecord} {s : Extraction}
    (hashable : PromptsHashable records) (hafter : s.After records)
    (hnot : ¬PromptMeetsRequest records) :
    Isolated records s.requestSequences (records.map (fileKey (distinctPrompts records))) := by
  have hzip : records.zip (records.map (fileKey (distinctPrompts records))) =
      records.map fun record => (record, fileKey (distinctPrompts records) record) :=
    List.map_prod_left_eq_zip.symm
  have hmem : ∀ p ∈ records.zip (records.map (fileKey (distinctPrompts records))),
      p.1 ∈ records ∧ p.2 = (identity p.1).map (idKey (distinctPrompts records)) := by
    intro p hp
    rw [hzip] at hp
    obtain ⟨record, hrecord, rfl⟩ := List.mem_map.mp hp
    exact ⟨hrecord, rfl⟩
  refine ⟨List.length_map _, fun r l => ?_, fun p hp => ?_, fun p hp q hq l hsome heq hlp hlq => ?_⟩
  · rw [hafter.seq, hzip, List.filter_map, List.flatMap_map]
    rfl
  · obtain ⟨hp, hkey⟩ := hmem p hp
    rw [hkey, Option.isSome_map, hasIdentity_iff hashable hp]
  · obtain ⟨hp, hkeyp⟩ := hmem p hp
    obtain ⟨hq, hkeyq⟩ := hmem q hq
    rw [hkeyp, Option.isSome_map] at hsome
    rw [sameRequest_iff hashable hp hq]
    refine ⟨hsome, ?_⟩
    obtain ⟨i, hi⟩ := Option.isSome_iff_exists.mp hsome
    rw [hkeyp, hkeyq, hi, Option.map_some, eq_comm, Option.map_eq_some_iff] at heq
    obtain ⟨j, hj, hkey⟩ := heq
    rw [hi, hj]
    by_contra hne
    exact hnot (promptMeetsRequest_of_idKey hashable hp hq hi hj (fun h => hne (by rw [h])) hkey.symm
      hlp hlq)

/-! ## Requests that share a sequence -/

section Count

variable {records : List OutputRecord} {s : Extraction} {keys : List (Option ℕ)}

/-- The requests with experts on a layer. -/
def requestsOn (records : List OutputRecord) (l : ℤ) : Finset Identity :=
  ((records.filter (primaryExperts · l ≠ [])).filterMap identity).toFinset

theorem mem_requestsOn {l : ℤ} {i : Identity} : i ∈ requestsOn records l ↔
    ∃ record ∈ records, primaryExperts record l ≠ [] ∧ identity record = some i := by
  simp [requestsOn, and_assoc]

/-- The sequences of a layer are filed under keys of its requests. -/
theorem Extraction.After.mem_image_idKey (h : s.After records) {key : ℕ} {l : ℤ}
    (hseq : s.requestSequences.seq key l ≠ []) :
    key ∈ (requestsOn records l).image (idKey (distinctPrompts records)) := by
  rw [h.seq] at hseq
  obtain ⟨e, he⟩ := List.exists_mem_of_ne_nil _ hseq
  obtain ⟨record, hrecord, he⟩ := List.mem_flatMap.mp he
  obtain ⟨hrecord, hkey⟩ := List.mem_filter.mp hrecord
  obtain ⟨i, hi, hik⟩ := Option.map_eq_some_iff.mp (of_decide_eq_true hkey)
  exact Finset.mem_image.mpr ⟨i, mem_requestsOn.mpr ⟨record, hrecord, List.ne_nil_of_mem he, hi⟩, hik⟩

/-- However the lines are filed, every request of a layer has a line with experts under some key. -/
theorem Isolated.exists_filed {seqs : Sequences} (h : Isolated records seqs keys)
    (hashable : PromptsHashable records) {l : ℤ} {i : Identity} (hi : i ∈ requestsOn records l) :
    ∃ key, ∃ record ∈ records, (record, some key) ∈ records.zip keys ∧
      primaryExperts record l ≠ [] ∧ identity record = some i := by
  obtain ⟨record, hrecord, hne, hid⟩ := mem_requestsOn.mp hi
  obtain ⟨n, hn, rfl⟩ := List.mem_iff_getElem.mp hrecord
  have hnk : n < keys.length := by rw [h.length]; exact hn
  have hpair : (records[n], keys[n]) ∈ records.zip keys := by
    rw [List.mem_iff_getElem]
    exact ⟨n, by rw [List.length_zip]; omega, List.getElem_zip⟩
  have hsome := (h.kept _ hpair).mpr ((hasIdentity_iff hashable hrecord).mpr (by rw [hid]; rfl))
  obtain ⟨key, hkey⟩ := Option.isSome_iff_exists.mp hsome
  dsimp only at hkey
  rw [hkey] at hpair
  exact ⟨key, records[n], hrecord, hpair, hne, hid⟩

/-- Isolated requests of a layer have sequences of their own, so their keys are distinct. -/
theorem Isolated.injOn_idKey (h : Isolated records s.requestSequences keys)
    (hashable : PromptsHashable records) (hafter : s.After records) (l : ℤ) :
    Set.InjOn (idKey (distinctPrompts records)) (requestsOn records l) := by
  apply Finset.card_image_iff.mp
  apply le_antisymm Finset.card_image_le
  choose! key record hrecord hpair hne hid using
    fun i (hi : i ∈ requestsOn records l) => h.exists_filed hashable hi
  apply Finset.card_le_card_of_injOn key
  · intro i hi
    apply hafter.mem_image_idKey
    rw [h.seq]
    obtain ⟨e, he⟩ := List.exists_mem_of_ne_nil _ (hne i hi)
    refine List.ne_nil_of_mem (List.mem_flatMap.mpr ⟨_, List.mem_filter.mpr ⟨hpair i hi, ?_⟩, he⟩)
    simp
  · intro i hi j hj hij
    have hsame := h.apart _ (hpair i hi) _ (hpair j hj) l rfl (by rw [hij]) (hne i hi) (hne j hj)
    have heq := ((sameRequest_iff hashable (hrecord i hi) (hrecord j hj)).mp hsame).2
    rw [hid i hi, hid j hj] at heq
    exact Option.some.inj heq

/-- If a prompt meets a request on a layer, the two share a key, and no way of filing the lines explains
the sequences. -/
theorem not_promptMeetsRequest_of_isolated (hashable : PromptsHashable records) (hafter : s.After records)
    (h : Isolated records s.requestSequences keys) : ¬PromptMeetsRequest records := by
  rintro ⟨a, ha, b, hb, r, prompt, k, l, hr, hp, hk, hget, hla, hlb⟩
  have hida : identity a = some (.request r) := by rw [identity, hr]
  have hidb : identity b = some (.prompt k) := by
    rcases identity_cases b (hashable b hb) with
      ⟨_, -, hp', -⟩ | ⟨prompt', k', -, hp', hk', hid⟩ | ⟨-, hp', -⟩ <;> rw [hp] at hp' <;> cases hp'
    rw [hk] at hk'
    cases hk'
    exact hid
  have hidx : (distinctPrompts records).idxOf k = r := by
    obtain ⟨hlt, hget⟩ := List.getElem?_eq_some_iff.mp hget
    rw [← hget]
    exact (nodup_eraseDups _).idxOf_getElem r hlt
  have hsame := h.injOn_idKey hashable hafter l (mem_requestsOn.mpr ⟨a, ha, hla, hida⟩)
    (mem_requestsOn.mpr ⟨b, hb, hlb, hidb⟩) (by rw [idKey, idKey, hidx])
  cases hsame

end Count

theorem of_requestsIsolated {records : List OutputRecord} (h : RequestsIsolated records) :
    PromptsHashable records ∧ ¬PromptMeetsRequest records := by
  obtain ⟨seqs, keys, hextract, hisolated⟩ := h
  obtain ⟨s, hs, hseqs⟩ := except_bind_eq_ok.mp hextract
  cases hseqs
  have hashable := promptsHashable_of_foldlM hs
  obtain ⟨s', hs', hafter⟩ := foldlM_extractRecord hashable
  rw [hs] at hs'
  cases hs'
  exact ⟨hashable, not_promptMeetsRequest_of_isolated hashable hafter hisolated⟩

/-- **Isolation of requests.** The extraction returns sequences that keep the requests apart if and only
if the prompts of the lines without `request_id` can be keys of a dictionary and no line of request `r`
shares a layer with a line that has the `r`-th prompt. -/
theorem requests_isolated_iff (records : List OutputRecord) :
    RequestsIsolated records ↔ PromptsHashable records ∧ ¬PromptMeetsRequest records := by
  constructor
  · exact of_requestsIsolated
  · rintro ⟨hashable, hnot⟩
    obtain ⟨s, hs, hafter⟩ := foldlM_extractRecord hashable
    refine ⟨s.requestSequences, _, ?_, isolated_of_not_promptMeetsRequest hashable hafter hnot⟩
    rw [extractExpertSequencesByRequest, hs]
    rfl

/-- Request 0 and a line without `request_id` whose prompt is the first one. -/
def mixedLines : List OutputRecord :=
  let layers (e : ℤ) : PyDict String LayerData := ⟨[("0", { expertIds := [e] })], by simp⟩
  [{ requestId := some 0, layers := layers 5 },
    { prompt := some (.str ['x']), layers := layers 7 }]

/-- Both lines are filed under `0`. -/
theorem requests_not_isolated_sample :
    (∃ seqs, extractExpertSequencesByRequest mixedLines = .ok seqs ∧ seqs.seq 0 0 = [5, 7]) ∧
      ¬RequestsIsolated mixedLines := by
  refine ⟨⟨_, rfl, by decide⟩, fun h => (of_requestsIsolated h).2 ?_⟩
  exact ⟨_, List.mem_cons_self, _, List.mem_cons_of_mem _ List.mem_cons_self, 0, .str ['x'], .str ['x'],
    0, rfl, rfl, rfl, rfl, by decide, by decide⟩

end ComputeExpertMetrics

end MoeSpecialization.Metrics
