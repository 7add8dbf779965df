import Mathlib.Algebra.BigOperators.Fin
import Mathlib.Algebra.GroupWithZero.Nat
import Mathlib.Algebra.Order.BigOperators.Group.Finset
import Mathlib.Data.Fintype.Basic
import Mathlib.Data.List.Basic

/-!
# Rounds of messages between ranks

Some ranks work through the same number of rounds, each at its own speed. In a round a rank sends to its
peers what it reads from its memory and receives from its peers what it writes to its memory; the
operations with one peer happen in their order, those with different peers in any order. When all of them
are done, the rank finishes the round and goes on, whatever the others do. Messages from one rank to
another arrive in the order in which they are sent, over all rounds.

A `Contract` says which values the messages of a round are to have and what holds of a memory on the way.
It is enough to check it one operation at a time: then it holds in every run (`Contract.inv_run`), no run
gets stuck (`Contract.progress`), and every run has the same number of steps before all ranks are done
(`Contract.length_run`).
-/

namespace Rounds

variable {R σ V : Type}

/-- What the ranks do. `sends k r d` is what the rank `r` reads for each of its messages to `d` in the
round `k`, and `recvs k r p` is what it does with each message of `p`. -/
structure Plan (R σ V : Type) where
  rounds : ℕ
  sends : ℕ → R → R → List (σ → V)
  recvs : ℕ → R → R → List (V → σ → σ)
  finish : ℕ → R → σ → σ

/-- The number of messages that a rank has for a peer in a round. There are none after the last round. -/
def Plan.numSends (P : Plan R σ V) (k : ℕ) (r d : R) : ℕ :=
  if k < P.rounds then (P.sends k r d).length else 0

/-- The number of messages that a rank waits for in a round. -/
def Plan.numRecvs (P : Plan R σ V) (k : ℕ) (r p : R) : ℕ :=
  if k < P.rounds then (P.recvs k r p).length else 0

/-- How far every rank is, the messages on the way from one rank to another, and the memories. -/
structure State (R σ V : Type) where
  round : R → ℕ
  sent : R → R → ℕ
  received : R → R → ℕ
  channel : R → R → List V
  memory : R → σ

/-- The next operation of a rank with a peer, or the end of its round. -/
inductive Event (R : Type) where
  | send (r peer : R)
  | recv (r peer : R)
  | finish (r : R)

/-- Nothing is done and nothing is on the way. -/
def State.init (memory : R → σ) : State R σ V where
  round _ := 0
  sent _ _ := 0
  received _ _ := 0
  channel _ _ := []
  memory := memory

section

variable [DecidableEq R]

/-- A table with one entry changed. -/
def setAt {α : Type} (f : R → R → α) (r p : R) (v : α) : R → R → α :=
  Function.update f r (Function.update (f r) p v)

theorem setAt_apply {α : Type} (f : R → R → α) (r p : R) (v : α) (x y : R) :
    setAt f r p v x y = if x = r ∧ y = p then v else f x y := by
  by_cases hx : x = r
  · subst hx
    by_cases hy : y = p
    · simp [setAt, hy]
    · simp [setAt, hy]
  · simp [setAt, hx]

theorem setAt_self {α : Type} (f : R → R → α) (r p : R) (v : α) : setAt f r p v r p = v := by
  simp [setAt_apply]

theorem setAt_of_ne {α : Type} (f : R → R → α) {r q : R} (h : q ≠ r) (p : R) (v : α) :
    setAt f r p v q = f q := by
  rw [setAt, Function.update_of_ne h]

variable [Fintype R]

/-- An event happens, if it can. -/
def step (P : Plan R σ V) (s : State R σ V) : Event R → Option (State R σ V)
  | .send r d =>
    if s.round r < P.rounds then
      (P.sends (s.round r) r d)[s.sent r d]?.map fun read =>
        { s with
          sent := setAt s.sent r d (s.sent r d + 1)
          channel := setAt s.channel r d (s.channel r d ++ [read (s.memory r)]) }
    else none
  | .recv r p =>
    if s.round r < P.rounds then
      (P.recvs (s.round r) r p)[s.received r p]?.bind fun write =>
        (s.channel p r).head?.map fun v =>
          { s with
            received := setAt s.received r p (s.received r p + 1)
            channel := setAt s.channel p r (s.channel p r).tail
            memory := Function.update s.memory r (write v (s.memory r)) }
    else none
  | .finish r =>
    if s.round r < P.rounds ∧ (∀ d, s.sent r d = (P.sends (s.round r) r d).length) ∧
        ∀ p, s.received r p = (P.recvs (s.round r) r p).length then
      some { s with
        round := Function.update s.round r (s.round r + 1)
        sent := Function.update s.sent r fun _ => 0
        received := Function.update s.received r fun _ => 0
        memory := Function.update s.memory r (P.finish (s.round r) r (s.memory r)) }
    else none

/-- The events happen one after another. -/
def run (P : Plan R σ V) (s : State R σ V) (events : List (Event R)) : Option (State R σ V) :=
  events.foldlM (step P) s

/-- The number of events of a rank in a round. -/
def Plan.roundSteps (P : Plan R σ V) (r : R) (k : ℕ) : ℕ :=
  ∑ d, (P.sends k r d).length + ∑ p, (P.recvs k r p).length + 1

/-- The number of events of all ranks together. -/
def Plan.totalSteps (P : Plan R σ V) : ℕ := ∑ r, ∑ k ∈ Finset.range P.rounds, P.roundSteps r k

/-- The number of events of a rank so far. -/
def State.rankSteps (P : Plan R σ V) (s : State R σ V) (r : R) : ℕ :=
  ∑ k ∈ Finset.range (s.round r), P.roundSteps r k + ∑ d, s.sent r d + ∑ p, s.received r p

/-- All ranks are through. -/
def State.Done (P : Plan R σ V) (s : State R σ V) : Prop := ∀ r, s.round r = P.rounds

/-! ## The number of steps -/

theorem sum_eq_add_one {f f' : R → ℕ} (r : R) (hr : f' r = f r + 1) (h : ∀ q, q ≠ r → f' q = f q) :
    ∑ q, f' q = ∑ q, f q + 1 := by
  have herase : ∑ q ∈ Finset.univ.erase r, f' q = ∑ q ∈ Finset.univ.erase r, f q :=
    Finset.sum_congr rfl fun q hq => h q (Finset.ne_of_mem_erase hq)
  rw [← Finset.add_sum_erase _ f (Finset.mem_univ r), ← Finset.add_sum_erase _ f' (Finset.mem_univ r),
    herase, hr]
  omega

theorem sum_setAt_self (f : R → R → ℕ) (r p : R) :
    ∑ q, setAt f r p (f r p + 1) r q = ∑ q, f r q + 1 := by
  refine sum_eq_add_one p ?_ fun q hq => ?_
  · rw [setAt_self]
  · rw [setAt_apply, if_neg fun hc => hq hc.2]

/-- Every event counts once. -/
theorem rankSteps_step {P : Plan R σ V} {s s' : State R σ V} {e : Event R} (h : step P s e = some s') :
    ∑ r, s'.rankSteps P r = ∑ r, s.rankSteps P r + 1 := by
  cases e with
  | send r d =>
    rw [step] at h
    split at h
    · obtain ⟨read, -, rfl⟩ := Option.map_eq_some_iff.mp h
      refine sum_eq_add_one r ?_ fun q hq => ?_
      · simp only [State.rankSteps, sum_setAt_self]
        omega
      · simp only [State.rankSteps, setAt_of_ne _ hq]
    · cases h
  | recv r p =>
    rw [step] at h
    split at h
    · obtain ⟨write, -, h⟩ := Option.bind_eq_some_iff.mp h
      obtain ⟨v, -, rfl⟩ := Option.map_eq_some_iff.mp h
      refine sum_eq_add_one r ?_ fun q hq => ?_
      · simp only [State.rankSteps, sum_setAt_self]
        omega
      · simp only [State.rankSteps, setAt_of_ne _ hq]
    · cases h
  | finish r =>
    rw [step] at h
    split at h
    · rename_i hready
      obtain ⟨-, hsent, hreceived⟩ := hready
      cases h
      refine sum_eq_add_one r ?_ fun q hq => ?_
      · simp only [State.rankSteps, Function.update_self, Finset.sum_range_succ, Plan.roundSteps, hsent,
          hreceived, Finset.sum_const_zero]
        omega
      · simp only [State.rankSteps, Function.update_of_ne hq]
    · cases h

theorem rankSteps_run {P : Plan R σ V} {s s' : State R σ V} {events : List (Event R)}
    (h : run P s events = some s') :
    ∑ r, s'.rankSteps P r = ∑ r, s.rankSteps P r + events.length := by
  induction events generalizing s with
  | nil =>
    cases h
    rfl
  | cons e events ih =>
    rw [run, List.foldlM_cons] at h
    obtain ⟨s₁, hstep, hrest⟩ := Option.bind_eq_some_iff.mp h
    rw [ih hrest, rankSteps_step hstep, List.length_cons]
    omega

end

/-- The values of the messages and what holds of the memory of a rank in a round after `n p` messages of
each peer `p`, with one rule for each operation. -/
structure Contract [DecidableEq R] (P : Plan R σ V) where
  value : ℕ → R → R → List V
  Holds : ℕ → R → (R → ℕ) → σ → Prop
  length_sends : ∀ k < P.rounds, ∀ r d, (P.sends k r d).length = (value k r d).length
  length_recvs : ∀ k < P.rounds, ∀ r p, (P.recvs k r p).length = (value k p r).length
  send : ∀ k < P.rounds, ∀ {r : R} {n : R → ℕ} {m : σ} {d : R} {i : ℕ} {read : σ → V}, Holds k r n m →
    (P.sends k r d)[i]? = some read → (value k r d)[i]? = some (read m)
  recv : ∀ k < P.rounds, ∀ {r : R} {n : R → ℕ} {m : σ} {p : R} {write : V → σ → σ} {v : V}, Holds k r n m →
    (P.recvs k r p)[n p]? = some write → (value k p r)[n p]? = some v →
    Holds k r (Function.update n p (n p + 1)) (write v m)
  finish : ∀ k < P.rounds, ∀ {r : R} {n : R → ℕ} {m : σ}, Holds k r n m →
    (∀ p, n p = (P.recvs k r p).length) → Holds (k + 1) r (fun _ => 0) (P.finish k r m)

namespace Contract

variable [DecidableEq R] {P : Plan R σ V} (C : Contract P)

/-- The values from one rank to another from a round on. -/
def later (k : ℕ) (p r : R) : List V := ((List.range P.rounds).drop k).flatMap fun j => C.value j p r

theorem later_eq_append {k : ℕ} (hk : k < P.rounds) (p r : R) :
    C.later k p r = C.value k p r ++ C.later (k + 1) p r := by
  have hdrop : (List.range P.rounds).drop k = k :: (List.range P.rounds).drop (k + 1) := by
    rw [List.drop_eq_getElem_cons (by simpa using hk), List.getElem_range]
  rw [later, hdrop, List.flatMap_cons]
  rfl

theorem later_rounds {k : ℕ} (hk : P.rounds ≤ k) (p r : R) : C.later k p r = [] := by
  rw [later, List.drop_eq_nil_of_le (by simpa using hk), List.flatMap_nil]

/-- A value of the round is the next one of all values from its place on. -/
theorem drop_later {k i : ℕ} (hk : k < P.rounds) {p r : R} {v : V} (h : (C.value k p r)[i]? = some v) :
    (C.later k p r).drop i = v :: (C.later k p r).drop (i + 1) := by
  have hget : (C.later k p r)[i]? = some v := by
    rw [C.later_eq_append hk, List.getElem?_append_left (List.getElem?_eq_some_iff.mp h).1, h]
  obtain ⟨hlt, hval⟩ := List.getElem?_eq_some_iff.mp hget
  rw [List.drop_eq_getElem_cons hlt, hval]

theorem drop_later_length {k : ℕ} (hk : k < P.rounds) (p r : R) :
    (C.later k p r).drop (C.value k p r).length = C.later (k + 1) p r := by
  rw [C.later_eq_append hk, List.drop_left]

theorem length_later_le {k k' : ℕ} (h : k ≤ k') (p r : R) :
    (C.later k' p r).length ≤ (C.later k p r).length := by
  induction k', h using Nat.le_induction with
  | base => exact le_rfl
  | succ j _ ih =>
    refine le_trans ?_ ih
    by_cases hj : j < P.rounds
    · rw [C.later_eq_append hj, List.length_append]
      omega
    · rw [C.later_rounds (by omega)]
      exact Nat.zero_le _

/-- What is on the way, and then what is still to be sent, is what is still to be received. -/
structure Inv (s : State R σ V) : Prop where
  holds : ∀ r, C.Holds (s.round r) r (s.received r) (s.memory r)
  round_le : ∀ r, s.round r ≤ P.rounds
  sent_le : ∀ r d, s.sent r d ≤ P.numSends (s.round r) r d
  received_le : ∀ r p, s.received r p ≤ P.numRecvs (s.round r) r p
  stream : ∀ p r, s.channel p r ++ (C.later (s.round p) p r).drop (s.sent p r) =
    (C.later (s.round r) p r).drop (s.received r p)

variable {C} {s s' : State R σ V}

theorem inv_init {memory : R → σ} (h : ∀ r, C.Holds 0 r (fun _ => 0) (memory r)) :
    C.Inv (State.init memory) where
  holds := h
  round_le _ := Nat.zero_le _
  sent_le _ _ := Nat.zero_le _
  received_le _ _ := Nat.zero_le _
  stream _ _ := rfl

section Steps

variable [Fintype R]

theorem inv_send {r d : R} (h : C.Inv s) (hstep : step P s (.send r d) = some s') : C.Inv s' := by
  rw [step] at hstep
  split at hstep
  · rename_i hround
    obtain ⟨read, hread, rfl⟩ := Option.map_eq_some_iff.mp hstep
    have hlt := (List.getElem?_eq_some_iff.mp hread).1
    have hvalue := C.send _ hround (h.holds r) hread
    refine { h with sent_le := fun r' d' => ?_, stream := fun p q => ?_ }
    · simp only [setAt_apply]
      split
      · rename_i heq
        obtain ⟨rfl, rfl⟩ := heq
        rw [Plan.numSends, if_pos hround]
        exact hlt
      · exact h.sent_le r' d'
    · simp only [setAt_apply]
      split
      · rename_i heq
        obtain ⟨rfl, rfl⟩ := heq
        rw [← h.stream p q, C.drop_later hround hvalue, List.append_assoc, List.singleton_append]
      · exact h.stream p q
  · cases hstep

theorem inv_recv {r p : R} (h : C.Inv s) (hstep : step P s (.recv r p) = some s') : C.Inv s' := by
  rw [step] at hstep
  split at hstep
  · rename_i hround
    obtain ⟨write, hwrite, hstep⟩ := Option.bind_eq_some_iff.mp hstep
    obtain ⟨v, hv, rfl⟩ := Option.map_eq_some_iff.mp hstep
    have hlt := (List.getElem?_eq_some_iff.mp hwrite).1
    have hlt' : s.received r p < (C.value (s.round r) p r).length := C.length_recvs _ hround r p ▸ hlt
    have hchannel : s.channel p r = v :: (s.channel p r).tail := (List.head?_eq_some_iff.mp hv).elim
      fun vs hvs => by rw [hvs, List.tail_cons]
    -- the first message on the way is the next one that the rank waits for
    have hstream := h.stream p r
    rw [hchannel, C.drop_later hround (List.getElem?_eq_getElem hlt'), List.cons_append,
      List.cons.injEq] at hstream
    have hvalue : (C.value (s.round r) p r)[s.received r p]? = some v := by
      rw [List.getElem?_eq_getElem hlt', hstream.1]
    refine { h with holds := fun q => ?_, received_le := fun q p' => ?_, stream := fun p' q => ?_ }
    · by_cases hq : q = r
      · subst hq
        have hrecv := C.recv _ hround (h.holds q) hwrite hvalue
        have hsame : setAt s.received q p (s.received q p + 1) q =
            Function.update (s.received q) p (s.received q p + 1) := by
          rw [setAt, Function.update_self]
        simpa only [hsame, Function.update_self] using hrecv
      · simpa only [setAt_of_ne _ hq, Function.update_of_ne hq] using h.holds q
    · simp only [setAt_apply]
      split
      · rename_i heq
        obtain ⟨rfl, rfl⟩ := heq
        rw [Plan.numRecvs, if_pos hround]
        exact hlt
      · exact h.received_le q p'
    · simp only [setAt_apply]
      by_cases heq : p' = p ∧ q = r
      · obtain ⟨rfl, rfl⟩ := heq
        rw [if_pos ⟨rfl, rfl⟩, if_pos ⟨rfl, rfl⟩]
        exact hstream.2
      · rw [if_neg heq, if_neg fun hc => heq hc.symm]
        exact h.stream p' q
  · cases hstep

theorem inv_finish {r : R} (h : C.Inv s) (hstep : step P s (.finish r) = some s') : C.Inv s' := by
  rw [step] at hstep
  split at hstep
  · rename_i hready
    obtain ⟨hround, hsent, hreceived⟩ := hready
    cases hstep
    have hdrop : ∀ q : R, (C.later (s.round r) r q).drop (s.sent r q) = C.later (s.round r + 1) r q :=
      fun q => by rw [hsent q, C.length_sends _ hround, C.drop_later_length hround]
    have hdrop' : ∀ p : R, (C.later (s.round r) p r).drop (s.received r p) = C.later (s.round r + 1) p r :=
      fun p => by rw [hreceived p, C.length_recvs _ hround, C.drop_later_length hround]
    refine ⟨fun q => ?_, fun q => ?_, fun q d => ?_, fun q p => ?_, fun p q => ?_⟩
    · by_cases hq : q = r
      · subst hq
        simpa only [Function.update_self] using C.finish _ hround (h.holds q) hreceived
      · simpa only [Function.update_of_ne hq] using h.holds q
    · by_cases hq : q = r
      · subst hq
        simpa only [Function.update_self] using Nat.succ_le_of_lt hround
      · simpa only [Function.update_of_ne hq] using h.round_le q
    · by_cases hq : q = r
      · subst hq
        simp only [Function.update_self]
        exact Nat.zero_le _
      · simpa only [Function.update_of_ne hq] using h.sent_le q d
    · by_cases hq : q = r
      · subst hq
        simp only [Function.update_self]
        exact Nat.zero_le _
      · simpa only [Function.update_of_ne hq] using h.received_le q p
    · have hstream := h.stream p q
      by_cases hp : p = r <;> by_cases hq : q = r
      · subst hp
        subst hq
        rw [hdrop q, hdrop' q] at hstream
        simpa only [Function.update_self, List.drop_zero] using hstream
      · subst hp
        rw [hdrop q] at hstream
        simpa only [Function.update_self, Function.update_of_ne hq, List.drop_zero] using hstream
      · subst hq
        rw [hdrop' p] at hstream
        simpa only [Function.update_self, Function.update_of_ne hp, List.drop_zero] using hstream
      · simpa only [Function.update_of_ne hp, Function.update_of_ne hq] using hstream
  · cases hstep

/-- The step lemma. -/
theorem inv_step {e : Event R} (h : C.Inv s) (hstep : step P s e = some s') : C.Inv s' := by
  cases e with
  | send r d => exact inv_send h hstep
  | recv r p => exact inv_recv h hstep
  | finish r => exact inv_finish h hstep

/-- The run lemma. -/
theorem inv_run {events : List (Event R)} (h : C.Inv s) (hrun : run P s events = some s') : C.Inv s' := by
  induction events generalizing s with
  | nil =>
    cases hrun
    exact h
  | cons e events ih =>
    rw [run, List.foldlM_cons] at hrun
    obtain ⟨s₁, hstep, hrest⟩ := Option.bind_eq_some_iff.mp hrun
    exact ih (inv_step h hstep) hrest

/-- As long as a rank is not through, something can happen. -/
theorem progress (h : C.Inv s) (hs : ¬ s.Done P) : ∃ e, (step P s e).isSome := by
  obtain ⟨r₀, hr₀⟩ := not_forall.mp hs
  -- a rank that is furthest behind
  obtain ⟨r, hmin⟩ : ∃ r, ∀ q, s.round r ≤ s.round q :=
    ⟨@Function.argmin R ℕ s.round _ _ ⟨r₀⟩, fun q => @Function.argmin_le R ℕ s.round _ _ q ⟨r₀⟩⟩
  have hround : s.round r < P.rounds :=
    (hmin r₀).trans_lt (lt_of_le_of_ne (h.round_le r₀) hr₀)
  have hsend : ∀ {q d : R}, s.round q < P.rounds → s.sent q d < (P.sends (s.round q) q d).length →
      ∃ e, (step P s e).isSome := by
    intro q d hq hlt
    refine ⟨.send q d, ?_⟩
    rw [step, if_pos hq, List.getElem?_eq_getElem hlt, Option.map_some, Option.isSome_some]
  by_cases hsent : ∃ d, s.sent r d < (P.sends (s.round r) r d).length
  · obtain ⟨d, hd⟩ := hsent
    exact hsend hround hd
  by_cases hreceived : ∃ p, s.received r p < (P.recvs (s.round r) r p).length
  · obtain ⟨p, hp⟩ := hreceived
    cases hchannel : s.channel p r with
    | cons v vs =>
      refine ⟨.recv r p, ?_⟩
      rw [step, if_pos hround, List.getElem?_eq_getElem hp, Option.bind_some, hchannel, List.head?_cons,
        Option.map_some, Option.isSome_some]
    | nil =>
      -- nothing is on the way, so the peer is in the same round and still has to send
      have hstream := congrArg List.length (h.stream p r)
      have hsplit := congrArg List.length (C.later_eq_append hround p r)
      rw [C.length_recvs _ hround] at hp
      rw [hchannel, List.nil_append, List.length_drop, List.length_drop] at hstream
      rw [List.length_append] at hsplit
      have heq : s.round p = s.round r := by
        by_contra hne
        have hle := C.length_later_le (lt_of_le_of_ne (hmin p) (Ne.symm hne)) p r
        rw [Nat.succ_eq_add_one] at hle
        omega
      have hlt : s.sent p r < (P.sends (s.round p) p r).length := by
        rw [heq, C.length_sends _ hround]
        rw [heq] at hstream
        omega
      exact hsend (heq ▸ hround) hlt
  · refine ⟨.finish r, ?_⟩
    rw [step, if_pos, Option.isSome_some]
    refine ⟨hround, fun d => ?_, fun p => ?_⟩
    · have hle := h.sent_le r d
      rw [Plan.numSends, if_pos hround] at hle
      exact le_antisymm hle (not_lt.mp fun hlt => hsent ⟨d, hlt⟩)
    · have hle := h.received_le r p
      rw [Plan.numRecvs, if_pos hround] at hle
      exact le_antisymm hle (not_lt.mp fun hlt => hreceived ⟨p, hlt⟩)

theorem rankSteps_le (h : C.Inv s) (r : R) :
    s.rankSteps P r ≤ ∑ k ∈ Finset.range P.rounds, P.roundSteps r k ∧
      (s.rankSteps P r = ∑ k ∈ Finset.range P.rounds, P.roundSteps r k ↔ s.round r = P.rounds) := by
  have hsent := Finset.sum_le_sum fun d (_ : d ∈ Finset.univ) => h.sent_le r d
  have hreceived := Finset.sum_le_sum fun p (_ : p ∈ Finset.univ) => h.received_le r p
  rw [State.rankSteps]
  rcases Nat.lt_or_eq_of_le (h.round_le r) with hlt | heq
  · -- the end of the round is missing
    have hsplit : ∑ k ∈ Finset.range (s.round r), P.roundSteps r k + P.roundSteps r (s.round r) ≤
        ∑ k ∈ Finset.range P.rounds, P.roundSteps r k := by
      rw [← Finset.sum_range_succ]
      exact Finset.sum_le_sum_of_subset (Finset.range_mono hlt)
    simp only [Plan.numSends, Plan.numRecvs, if_pos hlt] at hsent hreceived
    rw [Plan.roundSteps] at hsplit
    constructor
    · omega
    · constructor <;> intro <;> omega
  · simp only [Plan.numSends, Plan.numRecvs, heq, lt_irrefl, if_false, Finset.sum_const_zero] at hsent hreceived
    rw [heq]
    constructor
    · omega
    · constructor <;> intro <;> omega

/-- No run has more events than all ranks have together, and all ranks are through when it has as many. -/
theorem length_run {memory : R → σ} {events : List (Event R)}
    (h : ∀ r, C.Holds 0 r (fun _ => 0) (memory r)) (hrun : run P (.init memory) events = some s) :
    events.length ≤ P.totalSteps ∧ (events.length = P.totalSteps ↔ s.Done P) := by
  have hinv := inv_run (inv_init h) hrun
  have hcount : ∑ r, s.rankSteps P r = events.length := by
    rw [rankSteps_run hrun]
    simp [State.rankSteps, State.init]
  have hle := fun r => (rankSteps_le hinv r).1
  rw [← hcount, Plan.totalSteps]
  refine ⟨Finset.sum_le_sum fun r _ => hle r, ?_⟩
  rw [Finset.sum_eq_sum_iff_of_le fun r _ => hle r]
  simp only [Finset.mem_univ, forall_true_left, (rankSteps_le hinv _).2]
  rfl

/-- Every state on the way can be continued until all ranks are through. -/
theorem exists_run_done (h : C.Inv s) : ∃ events s', run P s events = some s' ∧ s'.Done P := by
  -- the number of steps that are left decreases
  induction hleft : P.totalSteps - ∑ r, s.rankSteps P r generalizing s with
  | zero =>
    refine ⟨[], s, rfl, ?_⟩
    by_contra hs
    obtain ⟨e, he⟩ := progress h hs
    obtain ⟨s₁, hstep⟩ := Option.isSome_iff_exists.mp he
    have hle := Finset.sum_le_sum fun r (_ : r ∈ Finset.univ) => (rankSteps_le (inv_step h hstep) r).1
    rw [rankSteps_step hstep] at hle
    rw [Plan.totalSteps] at hleft
    omega
  | succ left ih =>
    by_cases hs : s.Done P
    · exact ⟨[], s, rfl, hs⟩
    · obtain ⟨e, he⟩ := progress h hs
      obtain ⟨s₁, hstep⟩ := Option.isSome_iff_exists.mp he
      obtain ⟨events, s', hrun, hdone⟩ := ih (inv_step h hstep) (by rw [rankSteps_step hstep]; omega)
      refine ⟨e :: events, s', ?_, hdone⟩
      rw [run, List.foldlM_cons, hstep]
      exact hrun

/-- What holds when all ranks are through. -/
theorem holds_of_done {memory : R → σ} {events : List (Event R)}
    (h : ∀ r, C.Holds 0 r (fun _ => 0) (memory r)) (hrun : run P (.init memory) events = some s)
    (hdone : s.Done P) (r : R) : C.Holds P.rounds r (s.received r) (s.memory r) :=
  hdone r ▸ (inv_run (inv_init h) hrun).holds r

end Steps

end Contract

end Rounds
