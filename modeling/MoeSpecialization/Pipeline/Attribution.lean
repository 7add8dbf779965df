import MoeSpecialization.Postprocess.Align
import MoeSpecialization.Recorder.Run

/-!
# From forward passes to labelled tokens

The client sends its requests one at a time while the recorder is on. A request runs as one or more
prefill passes, the last of which yields its first token, and one decode pass for every further token.
The recorder keeps one record per pass; the inference file has the token ids of the requests whose chat
call returned; the postprocessor pairs the two by position.

`producerIds` are the passes that produced the tokens of the inference file, in the order of the file,
and `passIds` the passes that were recorded. The pairing is right exactly when the first list is a
prefix of the second (`attributed_iff_producerIds_first`), and that is a matter of the shapes of the requests
alone (`producerIds_prefix_iff`): a second prefill pass, or a request that failed, shifts everything
behind it.
-/

namespace MoeSpecialization.Pipeline

open Py Recorder Postprocess

/-- A request as the server runs it, whether its chat call returned, and whether the client asks for a
dump behind it. -/
structure Request where
  prefill : List Pass
  decode : List Pass
  tokenIds : List ℤ
  originalData : Json := .obj []
  returned : Bool
  dumpAfter : Bool := false
  prefill_ne_nil : prefill ≠ []
  length_tokenIds : tokenIds.length = decode.length + 1

namespace Request

/-- The passes of a request, in the order of execution. -/
def passes (r : Request) : List Pass := r.prefill ++ r.decode

/-- The passes that produced the tokens of a request, in the order of the tokens. -/
def producers (r : Request) : List Pass := r.prefill.getLast r.prefill_ne_nil :: r.decode

end Request

/-- The ids of the recorded passes. -/
def passIds (requests : List Request) : List ℕ :=
  requests.flatMap fun r => r.passes.map (·.forwardPassId)

/-- The requests with a line in the inference file. -/
def returnedRequests (requests : List Request) : List Request := requests.filter (·.returned)

/-- The ids of the passes that produced the tokens of the inference file. -/
def producerIds (requests : List Request) : List ℕ :=
  (returnedRequests requests).flatMap fun r => r.producers.map (·.forwardPassId)

/-- Requests sent one after the other. `ModelRunner.forward` numbers the passes consecutively, and every
pass has input tokens. -/
structure Session where
  requests : List Request
  firstPassId : ℕ
  numbered : passIds requests = List.range' firstPassId (passIds requests).length
  hasTokens : ∀ r ∈ requests, ∀ p ∈ r.passes, p.batch.inputIds ≠ []

/-- The calls on the recorder for one request. -/
def Request.ops (r : Request) : List Op :=
  r.passes.map .forwardPass ++ if r.dumpAfter then [.dumpRecord] else []

/-- All calls on the recorder. -/
def Session.ops (s : Session) : List Op :=
  .startRecord :: (s.requests.flatMap Request.ops ++ [.dumpRecord])

/-- The records of all dumps, in order. -/
def dumpedRecords (replies : List Reply) : List PassRecord :=
  replies.flatMap fun
    | .dump d => d.records
    | _ => []

/-- A nested list of a record as the postprocessor reads it. -/
def toRows {α : Type} (layers : List (List (List α))) : List (LayerRows α) :=
  layers.map fun rows => rows.map fun row => some (row.map some)

/-- A record of the recorder as the postprocessor reads it. -/
def toRecord (r : PassRecord) : Record where
  forwardPassId := some r.forwardPassId
  inputIds := some r.inputIds
  topkIdsOfLayer := toRows r.topkIdsOfLayer
  topkWeightsOfLayer := toRows r.topkWeightsOfLayer
  routerLogitsOfLayer := toRows r.routerLogitsOfLayer

namespace Session

/-- The expert data of a session. -/
def expertData (cfg : RecorderConfig) (s : Session) : ExpertData where
  records := (dumpedRecords (run cfg (.init cfg) s.ops).2).map toRecord
  lastPhysicalToLogicalMap := cfg.physicalToLogicalMap

/-- The inference results of a session. -/
def inferenceResults (s : Session) : List InferenceResult :=
  (returnedRequests s.requests).zipIdx.map fun p =>
    { requestId := p.2, tokenIds := p.1.tokenIds, originalData := p.1.originalData }

/-- Every aligned record that is labelled with a request and a token of it is the record of the pass
that produced the token. The label of a token is its index in the inference file; behind the tokens of
the requests before, it is the token's number in its own request. -/
def Attributed (s : Session) (aligned : List Record) : Prop :=
  ∀ record ∈ aligned, ∀ k i, record.requestId = some k → record.tokenIndex = some i →
    ∃ r p, (returnedRequests s.requests)[k]? = some r ∧
      r.producers[i - (((returnedRequests s.requests).take k).flatMap (·.tokenIds)).length]? = some p ∧
      record.forwardPassId = some p.forwardPassId

end Session

/-- The requests that returned come first, and each of them ran in one prefill pass. -/
def InStep (requests : List Request) : Prop :=
  ∃ inStep failed, requests = inStep ++ failed ∧
    (∀ r ∈ inStep, r.returned = true ∧ r.prefill.length = 1) ∧ ∀ r ∈ failed, r.returned = false

/-! ## The recorder's side -/

/-- The passes among some calls. -/
def passIdsOfOps (ops : List Op) : List ℕ :=
  ops.filterMap fun
    | .forwardPass p => some p.forwardPassId
    | _ => none

/-- The passes that a run of dumps and passes hands over, and those it still keeps. -/
theorem dumped_append_pending (cfg : RecorderConfig) {st : RecorderState} {i : Ideal}
    (hsim : Sim st i) (hrec : i.recording = true) {ops : List Op} (htok : ∀ op ∈ ops, op.HasTokens)
    (hops : ∀ op ∈ ops, op = .dumpRecord ∨ ∃ p, op = .forwardPass p) :
    (dumpedRecords (run cfg st ops).2).map (·.forwardPassId) ++ (ops.foldl Ideal.step i).pending =
      i.pending ++ passIdsOfOps ops := by
  induction ops generalizing st i with
  | nil => simp [run, dumpedRecords, passIdsOfOps]
  | cons op ops ih =>
    obtain ⟨hsim', hreply⟩ := step_sim cfg hsim (htok op (by simp))
    have htok' : ∀ o ∈ ops, o.HasTokens := fun o ho => htok o (by simp [ho])
    have hops' : ∀ o ∈ ops, o = .dumpRecord ∨ ∃ p, o = .forwardPass p := fun o ho =>
      hops o (by simp [ho])
    have hdumped : dumpedRecords (run cfg st (op :: ops)).2 =
        dumpedRecords [(step cfg st op).2] ++
          dumpedRecords (run cfg (step cfg st op).1 ops).2 := by
      simp [run, dumpedRecords]
    rw [hdumped, List.map_append, List.append_assoc, List.foldl_cons]
    rcases hops op (by simp) with rfl | ⟨p, rfl⟩
    · obtain ⟨d, hd, hids⟩ := hreply
      rw [ih hsim' (by simpa [Ideal.step] using hrec) htok' hops', hd]
      simp [dumpedRecords, hids, Ideal.step, passIdsOfOps]
    · rw [ih hsim' (by simp [Ideal.step, hrec]) htok' hops']
      have hnone : dumpedRecords [(step cfg st (.forwardPass p)).2] = [] := by
        rcases hreply with h | ⟨e, h, -⟩ <;> rw [h] <;> rfl
      simp [hnone, Ideal.step, hrec, passIdsOfOps]

theorem passIdsOfOps_ops (r : Request) :
    passIdsOfOps r.ops = r.passes.map (·.forwardPassId) := by
  have hpasses : passIdsOfOps (r.passes.map .forwardPass) = r.passes.map (·.forwardPassId) := by
    rw [passIdsOfOps, List.filterMap_map, ← List.filterMap_eq_map]
    rfl
  rw [Request.ops, passIdsOfOps, List.filterMap_append]
  split
  · rw [← hpasses]
    exact List.append_nil _
  · rw [← hpasses]
    exact List.append_nil _

theorem mem_ops {r : Request} {op : Op} (h : op ∈ r.ops) :
    op = .dumpRecord ∨ ∃ p ∈ r.passes, op = .forwardPass p := by
  rw [Request.ops, List.mem_append] at h
  rcases h with h | h
  · obtain ⟨p, hp, rfl⟩ := List.mem_map.mp h
    exact .inr ⟨p, hp, rfl⟩
  · split at h
    · exact .inl (List.mem_singleton.mp h)
    · cases h

/-- The expert data has one record per pass, in the order of execution, wherever the client dumps. -/
theorem forwardPassId_expertData (cfg : RecorderConfig) (s : Session) :
    (s.expertData cfg).records.map (·.forwardPassId) = (passIds s.requests).map some := by
  have hops : ∀ op ∈ s.requests.flatMap Request.ops ++ [.dumpRecord],
      op = .dumpRecord ∨ ∃ r ∈ s.requests, ∃ p ∈ r.passes, op = .forwardPass p := by
    intro op hop
    rcases List.mem_append.mp hop with hop | hop
    · obtain ⟨r, hr, hop⟩ := List.mem_flatMap.mp hop
      rcases mem_ops hop with h | ⟨p, hp, h⟩
      · exact .inl h
      · exact .inr ⟨r, hr, p, hp, h⟩
    · exact .inl (List.mem_singleton.mp hop)
  have htok : ∀ op ∈ s.requests.flatMap Request.ops ++ [.dumpRecord], op.HasTokens := by
    intro op hop
    rcases hops op hop with rfl | ⟨r, hr, p, hp, rfl⟩
    · trivial
    · exact s.hasTokens r hr p hp
  -- after the start the recorder is on and stays on; the last dump leaves nothing pending
  have hstart := (@step_sim cfg _ _ .startRecord (sim_init cfg) trivial).1
  have hdumped := dumped_append_pending cfg hstart rfl htok fun op hop =>
    (hops op hop).imp_right fun ⟨_, _, p, _, h⟩ => ⟨p, h⟩
  have hpending : ((s.requests.flatMap Request.ops ++ [Op.dumpRecord]).foldl Ideal.step
      (Ideal.init.step .startRecord)).pending = [] := by
    rw [List.foldl_append]
    rfl
  have hids : passIdsOfOps (s.requests.flatMap Request.ops ++ [.dumpRecord]) =
      passIds s.requests := by
    rw [passIdsOfOps, List.filterMap_append, List.filterMap_flatMap, passIds]
    change (s.requests.flatMap fun r => passIdsOfOps r.ops) ++ [] = _
    rw [List.append_nil, funext passIdsOfOps_ops]
  have hstarted : dumpedRecords (run cfg (.init cfg) s.ops).2 =
      dumpedRecords (run cfg (step cfg (.init cfg) .startRecord).1
        (s.requests.flatMap Request.ops ++ [.dumpRecord])).2 := by
    rw [Session.ops, run, dumpedRecords, List.flatMap_cons]
    rfl
  rw [hpending, List.append_nil, hids] at hdumped
  rw [Session.expertData, hstarted, List.map_map]
  change (dumpedRecords _).map (some ∘ PassRecord.forwardPassId) = _
  rw [← List.map_map, hdumped]
  rfl

/-! ## The postprocessor's side -/

theorem length_producers (r : Request) : r.producers.length = r.tokenIds.length := by
  rw [Request.producers, List.length_cons, r.length_tokenIds]

theorem length_producerIds_le (requests : List Request) :
    (producerIds requests).length ≤ (passIds requests).length := by
  induction requests with
  | nil => rfl
  | cons r requests ih =>
    have hprefill := List.length_pos_iff.mpr r.prefill_ne_nil
    rw [producerIds, returnedRequests, passIds] at ih
    rw [producerIds, returnedRequests, List.filter_cons, passIds, List.flatMap_cons,
      List.length_append, List.length_map, Request.passes, List.length_append]
    split
    · rw [List.flatMap_cons, List.length_append, List.length_map, Request.producers,
        List.length_cons]
      omega
    · omega

/-- An element of a concatenation, by the piece it is in. -/
theorem getElem?_flatMap {α β : Type} {g : α → List β} {xs : List α} {k j : ℕ} {x : α}
    (hk : xs[k]? = some x) (hj : j < (g x).length) :
    (xs.flatMap g)[((xs.take k).flatMap g).length + j]? = (g x)[j]? := by
  induction xs generalizing k with
  | nil => cases hk
  | cons y xs ih =>
    cases k with
    | zero =>
      cases hk
      rw [List.take_zero, List.flatMap_nil, List.length_nil, Nat.zero_add, List.flatMap_cons,
        List.getElem?_append_left hj]
    | succ k =>
      rw [List.take_succ_cons, List.flatMap_cons, List.flatMap_cons, List.length_append, Nat.add_assoc,
        List.getElem?_append_right (by omega), Nat.add_sub_cancel_left]
      exact ih hk

theorem tokenIds_inferenceResults (s : Session) :
    s.inferenceResults.map (·.tokenIds) = (returnedRequests s.requests).map (·.tokenIds) := by
  rw [Session.inferenceResults, List.map_map]
  change (returnedRequests s.requests).zipIdx.map (Request.tokenIds ∘ Prod.fst) = _
  rw [← List.map_map, List.zipIdx_map_fst]

theorem flatMap_tokenIds {xs : List InferenceResult} {ys : List Request}
    (h : xs.map (·.tokenIds) = ys.map (·.tokenIds)) :
    xs.flatMap (·.tokenIds) = ys.flatMap (·.tokenIds) := by
  rw [List.flatMap_def, h, List.flatMap_def]

/-- Producers are counted like tokens. -/
theorem length_flatMap_producers (requests : List Request) :
    (requests.flatMap fun r => r.producers.map (·.forwardPassId)).length =
      (requests.flatMap (·.tokenIds)).length := by
  simp [List.length_flatMap, length_producers]

/-- What the label of an aligned record says, and which pass the record is of. -/
theorem aligned_label {cfg : RecorderConfig} {s : Session} {tokenizer : Option Tokenizer}
    {aligned : List Record}
    (h : alignTokensWithExperts s.inferenceResults (s.expertData cfg) tokenizer none = .ok aligned)
    {i : ℕ} {record : Record} (hrecord : aligned[i]? = some record) :
    record.tokenIndex = some i ∧ record.forwardPassId = (passIds s.requests)[i]? ∧
      ∃ k r p, record.requestId = some k ∧ (returnedRequests s.requests)[k]? = some r ∧
        r.producers[i - (((returnedRequests s.requests).take k).flatMap (·.tokenIds)).length]? =
          some p ∧ (producerIds s.requests)[i]? = some p.forwardPassId := by
  rw [alignTokensWithExperts_eq_streaming] at h
  obtain ⟨info, hinfo, rfl⟩ := except_map_eq_ok.mp h
  rw [getElem?_alignStreaming, Nat.zero_add, Option.bind_eq_some_iff] at hrecord
  obtain ⟨tokenId, htoken, hrecord⟩ := hrecord
  obtain ⟨source, hsource, rfl⟩ := Option.map_eq_some_iff.mp hrecord
  obtain ⟨htokens, hbounds⟩ := prepareTokenInfo_eq hinfo
  rw [selectRequests_none] at htokens hbounds
  obtain ⟨hi, -⟩ := List.getElem?_eq_some_iff.mp htoken
  obtain ⟨k, hk⟩ := Option.isSome_iff_exists.mp (requestOf_isSome hinfo hi)
  refine ⟨rfl, ?_, ?_⟩
  -- the record is that of the `i`-th pass
  · have hid := congrArg (·[i]?) (forwardPassId_expertData cfg s)
    simp only [List.getElem?_map, hsource, Option.map_some] at hid
    cases hpass : (passIds s.requests)[i]? with
    | none => rw [hpass] at hid; cases hid
    | some id =>
      rw [hpass] at hid
      exact Option.some.inj hid
  -- the token is the `j`-th of its request, and so is the pass that produced it
  · rw [hbounds] at hk
    obtain ⟨result, j, hresult, hj, hij⟩ := requestOf_boundariesFrom hk
    obtain ⟨r, hr, hrtokens⟩ : ∃ r, (returnedRequests s.requests)[k]? = some r ∧
        r.tokenIds = result.tokenIds := by
      have hget := congrArg (·[k]?) (tokenIds_inferenceResults s)
      simp only [List.getElem?_map, hresult, Option.map_some] at hget
      obtain ⟨r, hr, heq⟩ := Option.map_eq_some_iff.mp hget.symm
      exact ⟨r, hr, heq⟩
    have hoffset : (s.inferenceResults.take k).flatMap (·.tokenIds) =
        ((returnedRequests s.requests).take k).flatMap (·.tokenIds) := by
      refine flatMap_tokenIds ?_
      rw [List.map_take, tokenIds_inferenceResults, List.map_take]
    rw [hoffset, Nat.zero_add] at hij
    rw [← hrtokens, ← length_producers] at hj
    refine ⟨k, r, r.producers[j], by rw [alignRecord, hbounds]; exact hk, hr, ?_, ?_⟩
    · rw [hij, Nat.add_sub_cancel_left, List.getElem?_eq_getElem hj]
    · rw [producerIds, hij, ← length_flatMap_producers,
        getElem?_flatMap hr (by rwa [List.length_map]), List.getElem?_map,
        List.getElem?_eq_getElem hj]
      rfl

theorem length_aligned {cfg : RecorderConfig} {s : Session} {tokenizer : Option Tokenizer}
    {aligned : List Record}
    (h : alignTokensWithExperts s.inferenceResults (s.expertData cfg) tokenizer none = .ok aligned) :
    aligned.length = (producerIds s.requests).length := by
  rw [alignTokensWithExperts_eq_streaming] at h
  obtain ⟨info, hinfo, rfl⟩ := except_map_eq_ok.mp h
  have hrecords := congrArg List.length (forwardPassId_expertData cfg s)
  rw [List.length_map, List.length_map] at hrecords
  have htokens : info.allTokenIds.length = (producerIds s.requests).length := by
    rw [(prepareTokenInfo_eq hinfo).1, selectRequests_none,
      flatMap_tokenIds (tokenIds_inferenceResults s), producerIds, length_flatMap_producers]
  rw [length_alignStreaming, hrecords, htokens]
  have := length_producerIds_le s.requests
  omega

/-- The pairing by position is right exactly when the producing passes are the first passes. -/
theorem attributed_iff_producerIds_first {cfg : RecorderConfig} {s : Session} {tokenizer : Option Tokenizer}
    {aligned : List Record}
    (h : alignTokensWithExperts s.inferenceResults (s.expertData cfg) tokenizer none = .ok aligned) :
    s.Attributed aligned ↔ producerIds s.requests <+: passIds s.requests := by
  rw [List.prefix_iff_getElem?]
  constructor
  · intro hattr i hi
    have hi' : i < aligned.length := by rwa [length_aligned h]
    obtain ⟨hindex, hpass, k, r, p, hk, hr, hp, hproducer⟩ :=
      aligned_label h (List.getElem?_eq_getElem hi')
    obtain ⟨r', p', hr', hp', hid⟩ := hattr _ (List.getElem_mem hi') k i hk hindex
    rw [hr, Option.some.injEq] at hr'
    subst hr'
    rw [hp, Option.some.injEq] at hp'
    subst hp'
    rw [← hpass, hid, ← hproducer, List.getElem?_eq_getElem hi]
  · intro hprefix record hrecord k i hk hindex
    obtain ⟨i', hi'⟩ := List.mem_iff_getElem?.mp hrecord
    obtain ⟨hindex', hpass, k', r, p, hk', hr, hp, hproducer⟩ := aligned_label h hi'
    rw [hindex', Option.some.injEq] at hindex
    rw [hk', Option.some.injEq] at hk
    subst hindex hk
    refine ⟨r, p, hr, hp, ?_⟩
    obtain ⟨hlt, hget⟩ := List.getElem?_eq_some_iff.mp hproducer
    rw [hpass, hprefix i' hlt, hget]

/-! ## Which requests stay in step -/

theorem inStep_cons_iff (r : Request) (requests : List Request) :
    InStep (r :: requests) ↔
      (r.returned = true ∧ r.prefill.length = 1 ∧ InStep requests) ∨
        ∀ x ∈ r :: requests, x.returned = false := by
  constructor
  · rintro ⟨inStep, failed, heq, hin, hfailed⟩
    cases inStep with
    | nil =>
      rw [List.nil_append] at heq
      exact .inr (heq ▸ hfailed)
    | cons x inStep =>
      rw [List.cons_append, List.cons.injEq] at heq
      obtain ⟨rfl, rfl⟩ := heq
      obtain ⟨hret, hlen⟩ := hin r (by simp)
      exact .inl ⟨hret, hlen, inStep, failed, rfl, fun x hx => hin x (by simp [hx]), hfailed⟩
  · rintro (⟨hret, hlen, inStep, failed, rfl, hin, hfailed⟩ | hfailed)
    · refine ⟨r :: inStep, failed, rfl, ?_, hfailed⟩
      intro x hx
      rcases List.mem_cons.mp hx with rfl | hx
      · exact ⟨hret, hlen⟩
      · exact hin x hx
    · exact ⟨[], r :: requests, rfl, by simp, hfailed⟩

theorem producerIds_subset (requests : List Request) : producerIds requests ⊆ passIds requests := by
  intro id hid
  obtain ⟨r, hr, hid⟩ := List.mem_flatMap.mp hid
  obtain ⟨p, hp, rfl⟩ := List.mem_map.mp hid
  refine List.mem_flatMap.mpr ⟨r, (List.mem_filter.mp hr).1, List.mem_map_of_mem ?_⟩
  rcases List.mem_cons.mp hp with rfl | hp
  · exact List.mem_append_left _ (List.getLast_mem _)
  · exact List.mem_append_right _ hp

theorem producerIds_eq_nil_iff (requests : List Request) :
    producerIds requests = [] ↔ ∀ r ∈ requests, r.returned = false := by
  rw [producerIds, List.flatMap_eq_nil_iff]
  constructor
  · intro h r hr
    by_contra hret
    have hnil := h r (List.mem_filter.mpr ⟨hr, by simpa using hret⟩)
    simp [Request.producers] at hnil
  · intro h r hr
    obtain ⟨hr, hret⟩ := List.mem_filter.mp hr
    rw [h r hr] at hret
    cases hret

theorem producerIds_cons_of_returned {r : Request} (hret : r.returned = true) (requests : List Request) :
    producerIds (r :: requests) = r.producers.map (·.forwardPassId) ++ producerIds requests := by
  rw [producerIds, returnedRequests, List.filter_cons_of_pos hret, List.flatMap_cons]
  rfl

theorem producerIds_cons_of_failed {r : Request} (hret : ¬r.returned = true) (requests : List Request) :
    producerIds (r :: requests) = producerIds requests := by
  rw [producerIds, returnedRequests, List.filter_cons_of_neg hret]
  rfl

section Head

variable {r : Request} {requests : List Request}

/-- With a second prefill pass, the last one would have to be the first one. -/
theorem producerIds_not_of_second_prefill
    (hnodup : (r.passes.map (·.forwardPassId) ++ passIds requests).Nodup)
    {p q : Pass} {ps : List Pass} (hprefill : r.prefill = p :: q :: ps) :
    ¬r.producers.map (·.forwardPassId) ++ producerIds requests <+:
      r.passes.map (·.forwardPassId) ++ passIds requests := by
  intro h
  have hhead : r.passes = p :: (q :: ps ++ r.decode) := by
    rw [Request.passes, hprefill]
    rfl
  have hlast : r.prefill.getLast r.prefill_ne_nil ∈ q :: ps := by
    simp only [hprefill, List.getLast_cons_cons]
    exact List.getLast_mem _
  rw [hhead] at h hnodup
  obtain ⟨hid, -⟩ := List.cons_prefix_cons.mp h
  have hfresh := (List.nodup_cons.mp hnodup).1
  apply hfresh
  apply List.mem_append_left
  rw [← hid]
  exact List.mem_map_of_mem (List.mem_append_left _ hlast)

/-- After a failed request, the first token would have to come from one of its passes. -/
theorem producerIds_prefix_after_failed
    (hnodup : (r.passes.map (·.forwardPassId) ++ passIds requests).Nodup) :
    producerIds requests <+: r.passes.map (·.forwardPassId) ++ passIds requests ↔
      producerIds requests = [] := by
  constructor
  · intro h
    cases hids : producerIds requests with
    | nil => rfl
    | cons id ids =>
      have hmem : id ∈ passIds requests := producerIds_subset requests (by simp [hids])
      have hdisj := List.disjoint_of_nodup_append hnodup
      obtain ⟨p, ps, hprefill⟩ := List.exists_cons_of_ne_nil r.prefill_ne_nil
      have hhead : r.passes = p :: (ps ++ r.decode) := by
        rw [Request.passes, hprefill]
        rfl
      rw [hids, hhead] at h
      obtain ⟨rfl, -⟩ := List.cons_prefix_cons.mp h
      rw [hhead] at hdisj
      exact absurd hmem (hdisj (by simp))
  · intro h
    rw [h]
    exact List.nil_prefix

end Head

/-- A surplus pass in front of a produced token is never made up for. -/
theorem producerIds_prefix_iff {requests : List Request} (hnodup : (passIds requests).Nodup) :
    producerIds requests <+: passIds requests ↔ InStep requests := by
  induction requests with
  | nil => exact ⟨fun _ => ⟨[], [], rfl, by simp, by simp⟩, fun _ => List.prefix_rfl⟩
  | cons r requests ih =>
    have hpasses : passIds (r :: requests) =
        r.passes.map (·.forwardPassId) ++ passIds requests := List.flatMap_cons
    rw [hpasses] at hnodup ⊢
    have ih := ih hnodup.of_append_right
    rw [inStep_cons_iff]
    by_cases hret : r.returned = true
    · rw [producerIds_cons_of_returned hret, or_iff_left (fun h => by simp [h r (by simp)] at hret)]
      obtain ⟨p, ps, hprefill⟩ := List.exists_cons_of_ne_nil r.prefill_ne_nil
      cases ps with
      | nil =>
        have heq : r.producers = r.passes := by simp [Request.producers, Request.passes, hprefill]
        rw [heq, List.prefix_append_right_inj, ih]
        simp [hret, hprefill]
      | cons q ps =>
        exact iff_of_false (producerIds_not_of_second_prefill hnodup hprefill)
          fun h => by simp [hprefill] at h
    · have hfailed : (∀ x ∈ r :: requests, x.returned = false) ↔ producerIds requests = [] := by
        rw [producerIds_eq_nil_iff]
        simp [hret]
      rw [producerIds_cons_of_failed hret, or_iff_right (fun h => hret h.1), hfailed]
      exact producerIds_prefix_after_failed hnodup

/-- **End-to-end attribution.** Whatever the requests and wherever the client dumps, the alignment
labels every record with the request and the token that it belongs to if and only if the requests that
returned come first and each of them ran in one prefill pass. -/
theorem attributed_iff_inStep {cfg : RecorderConfig} {s : Session} {tokenizer : Option Tokenizer}
    {aligned : List Record}
    (h : alignTokensWithExperts s.inferenceResults (s.expertData cfg) tokenizer none = .ok aligned) :
    s.Attributed aligned ↔ InStep s.requests := by
  rw [attributed_iff_producerIds_first h, producerIds_prefix_iff]
  rw [s.numbered]
  exact List.nodup_range'

/-- Two requests of one prefill pass each; the second one is a single token. -/
def sampleSession : Session where
  requests :=
    [{ prefill := [samplePass 1 none], decode := [samplePass 2 none], tokenIds := [11, 2],
       returned := true, prefill_ne_nil := by simp, length_tokenIds := rfl },
     { prefill := [samplePass 3 none], decode := [], tokenIds := [5],
       returned := true, prefill_ne_nil := by simp, length_tokenIds := rfl }]
  firstPassId := 1
  numbered := by decide
  hasTokens := by simp [Request.passes, samplePass]

theorem attributed_sampleSession :
    ∃ aligned, alignTokensWithExperts sampleSession.inferenceResults
        (sampleSession.expertData sampleConfig) none none = .ok aligned ∧
      sampleSession.Attributed aligned := by
  have h : ∃ aligned, alignTokensWithExperts sampleSession.inferenceResults
      (sampleSession.expertData sampleConfig) none none = .ok aligned :=
    ⟨_, by rw [alignTokensWithExperts_eq_streaming]; rfl⟩
  obtain ⟨aligned, h⟩ := h
  exact ⟨aligned, h, (attributed_iff_inStep h).mpr
    ⟨sampleSession.requests, [], rfl, by simp [sampleSession], by simp⟩⟩

/-- A request whose prompt took two prefill passes. -/
def chunkedSession : Session where
  requests :=
    [{ prefill := [samplePass 1 none, samplePass 2 none], decode := [], tokenIds := [11],
       returned := true, prefill_ne_nil := by simp, length_tokenIds := rfl }]
  firstPassId := 1
  numbered := by decide
  hasTokens := by simp [Request.passes, samplePass]

/-- Its token is labelled with the record of the first chunk. -/
theorem not_attributed_chunkedSession :
    ∃ aligned, alignTokensWithExperts chunkedSession.inferenceResults
        (chunkedSession.expertData sampleConfig) none none = .ok aligned ∧
      ¬chunkedSession.Attributed aligned := by
  have h : ∃ aligned, alignTokensWithExperts chunkedSession.inferenceResults
      (chunkedSession.expertData sampleConfig) none none = .ok aligned :=
    ⟨_, by rw [alignTokensWithExperts_eq_streaming]; rfl⟩
  obtain ⟨aligned, h⟩ := h
  refine ⟨aligned, h, ?_⟩
  rw [attributed_iff_producerIds_first h]
  decide

end MoeSpecialization.Pipeline
