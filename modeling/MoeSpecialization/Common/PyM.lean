import MoeSpecialization.Common.Json

/-!
# Statements that mutate and may raise

Python code that mutates shared objects and may raise is a computation of type `PyM σ α`: the state
`σ` survives an exception, as the mutated objects do. It is the core `EStateM` at the exceptions of
`Common/Json.lean`.

Proofs about a run that returns peel it apart with `run_bind_eq_ok`, one statement at a time. `zoom`
runs a computation on a part of a larger state, and `exec` is a statement under
`try: … except Exception: …`, whose state is kept on both paths. `tryFinally` and `withValue` are
`try: … finally: …` and a context manager that holds a value for the time of its body.

What a statement leaves alone on both paths is `Preserves R`, for a preorder `R` between the state
before and the state after.
-/

namespace Py

/-- A computation that mutates a state and may raise. -/
abbrev PyM (σ α : Type) := EStateM Error σ α

namespace PyM

variable {σ τ α β : Type}

/-- A pure computation that may raise, as a statement that mutates nothing. -/
def ofExcept : Except Error α → PyM σ α
  | .ok a => pure a
  | .error e => throw e

/-- A computation on the part of the state that `get` reads and `set` writes. -/
def zoom (get : σ → τ) (set : τ → σ → σ) (x : PyM τ α) : PyM σ α := fun s =>
  match x.run (get s) with
  | .ok a t => .ok a (set t s)
  | .error e t => .error e (set t s)

/-- `try: x` with a handler that goes on: the state after the statement and the exception, if any. -/
def exec (x : PyM σ Unit) (s : σ) : σ × Option Error :=
  match x.run s with
  | .ok _ s' => (s', none)
  | .error e s' => (s', some e)

/-- `try: x finally: fin`. An exception of `fin` replaces one of `x`. -/
def tryFinally (x : PyM σ α) (fin : PyM σ Unit) : PyM σ α := fun s =>
  match x.run s with
  | .ok a s' =>
    match fin.run s' with
    | .ok _ s'' => .ok a s''
    | .error e s'' => .error e s''
  | .error e s' =>
    match fin.run s' with
    | .ok _ s'' => .error e s''
    | .error e' s'' => .error e' s''

/-- `assert b`. -/
def check (b : Bool) : PyM σ Unit := if b then pure () else throw .assertionError

/-- A context manager around `body`: the variable must be unset, holds `v` during the body, must still
hold it at the end, and is unset again on both paths. -/
def withValue [DecidableEq β] (get : σ → Option β) (set : Option β → σ → σ) (v : β)
    (body : PyM σ α) : PyM σ α := do
  let s ← MonadState.get
  check (get s).isNone
  modify (set (some v))
  tryFinally body do
    let s ← MonadState.get
    check (get s = some v)
    modify (set none)

/-- The state after a statement, whether it returned or raised. -/
def final (x : PyM σ α) (s : σ) : σ :=
  match x.run s with
  | .ok _ s' => s'
  | .error _ s' => s'

/-- Whether a statement returns. -/
def returns (x : PyM σ α) (s : σ) : Bool :=
  match x.run s with
  | .ok _ _ => true
  | .error _ _ => false

/-- `try: x except Exception: pass`, for an `x` whose exceptions are all instances of it. -/
def suppress (x : PyM σ α) : PyM σ Unit := fun s => .ok ⟨⟩ (final x s)

/-- The same outcome with another state. -/
def mapState (f : σ → σ) : EStateM.Result Error σ α → EStateM.Result Error σ α
  | .ok a s => .ok a (f s)
  | .error e s => .error e (f s)

@[simp] theorem run_pure (a : α) (s : σ) : (pure a : PyM σ α).run s = .ok a s := rfl

@[simp] theorem run_throw (e : Error) (s : σ) : (throw e : PyM σ α).run s = .error e s := rfl

@[simp] theorem run_modify (f : σ → σ) (s : σ) :
    (modify f : PyM σ Unit).run s = .ok ⟨⟩ (f s) := rfl

@[simp] theorem run_get (s : σ) : (get : PyM σ σ).run s = .ok s s := rfl

/-- A statement that begins by reading the state. -/
theorem final_get_bind (f : σ → PyM σ α) (s : σ) : final (get >>= f) s = final (f s) s := rfl

/-- A sequence returns exactly when its two parts return one after the other. -/
theorem run_bind_eq_ok {x : PyM σ α} {f : α → PyM σ β} {s s'' : σ} {b : β} :
    (x >>= f).run s = .ok b s'' ↔ ∃ a s', x.run s = .ok a s' ∧ (f a).run s' = .ok b s'' := by
  simp only [bind, EStateM.bind, EStateM.run]
  cases x s with
  | ok a s' => simp
  | error e s' => simp

/-- A sequence whose first part returns runs its second part next. -/
theorem run_bind_of_ok {x : PyM σ α} {f : α → PyM σ β} {s s' : σ} {a : α}
    (h : x.run s = .ok a s') : (x >>= f).run s = (f a).run s' := by
  simp only [bind, EStateM.bind, EStateM.run] at h ⊢
  rw [h]

/-- A sequence whose first part raises stops there. -/
theorem run_bind_of_error {x : PyM σ α} {f : α → PyM σ β} {s s' : σ} {e : Error}
    (h : x.run s = .error e s') : (x >>= f).run s = .error e s' := by
  simp only [bind, EStateM.bind, EStateM.run] at h ⊢
  rw [h]

@[simp] theorem run_ofExcept_ok (a : α) (s : σ) :
    (ofExcept (.ok a) : PyM σ α).run s = .ok a s := rfl

theorem ofExcept_ok_bind (a : α) (f : α → PyM σ β) : (ofExcept (.ok a) >>= f) = f a := rfl

theorem run_ofExcept_eq_ok {x : Except Error α} {s s' : σ} {a : α} :
    (ofExcept x : PyM σ α).run s = .ok a s' ↔ x = .ok a ∧ s = s' := by
  cases x with
  | ok b => simp [ofExcept]
  | error e => simp [ofExcept]

theorem run_zoom_eq_ok {get : σ → τ} {set : τ → σ → σ} {x : PyM τ α} {s s' : σ} {a : α} :
    (zoom get set x).run s = .ok a s' ↔ ∃ t, x.run (get s) = .ok a t ∧ set t s = s' := by
  simp only [zoom, EStateM.run]
  cases x (get s) with
  | ok b t => simp
  | error e t => simp

theorem run_zoom_of_error {get : σ → τ} {set : τ → σ → σ} {x : PyM τ α} {s : σ} {t : τ} {e : Error}
    (h : x.run (get s) = .error e t) : (zoom get set x).run s = .error e (set t s) := by
  simp only [EStateM.run] at h
  simp only [zoom, EStateM.run, h]

/-- On both paths, the part of the state is written back. -/
theorem final_zoom (get : σ → τ) (set : τ → σ → σ) (x : PyM τ α) (s : σ) :
    final (zoom get set x) s = set (final x (get s)) s := by
  simp only [final, zoom, EStateM.run]
  cases x (get s) <;> rfl

/-- A handled statement reports no exception exactly when it returned. -/
theorem exec_eq_none {x : PyM σ Unit} {s s' : σ} :
    exec x s = (s', none) ↔ x.run s = .ok ⟨⟩ s' := by
  simp only [exec, EStateM.run]
  cases x s with
  | ok a t => simp
  | error e t => simp

@[simp] theorem run_suppress (x : PyM σ α) (s : σ) : (suppress x).run s = .ok ⟨⟩ (final x s) := rfl

theorem run_check_of_true {b : Bool} (hb : b = true) (s : σ) :
    (check b : PyM σ Unit).run s = .ok ⟨⟩ s := by
  subst hb
  rfl

theorem run_check_of_false {b : Bool} (hb : b = false) (s : σ) :
    (check b : PyM σ Unit).run s = .error .assertionError s := by
  subst hb
  rfl

/-- A loop over elements that its body passes over. -/
theorem forM_eq_pure {f : β → PyM σ PUnit} {xs : List β} (h : ∀ x ∈ xs, f x = pure ⟨⟩) :
    xs.forM f = pure ⟨⟩ := by
  induction xs with
  | nil => rfl
  | cons x xs ih =>
    change (f x >>= fun _ => xs.forM f) = _
    rw [h x (by simp), pure_bind, ih fun y hy => h y (by simp [hy])]

/-- A loop with one more item returns exactly when the loop and then the item return. -/
theorem run_forM_concat {f : β → PyM σ PUnit} {xs : List β} {x : β} {s s' : σ} :
    ((xs ++ [x]).forM f).run s = .ok ⟨⟩ s' ↔
      ∃ s₁, (xs.forM f).run s = .ok ⟨⟩ s₁ ∧ (f x).run s₁ = .ok ⟨⟩ s' := by
  induction xs generalizing s with
  | nil =>
    change (f x >>= fun _ => (pure ⟨⟩ : PyM σ PUnit)).run s = .ok PUnit.unit s' ↔ _
    rw [run_bind_eq_ok]
    constructor
    · rintro ⟨u, s₁, hx, hret⟩
      cases hret
      exact ⟨s, rfl, hx⟩
    · rintro ⟨s₁, hret, hx⟩
      cases hret
      exact ⟨⟨⟩, s', hx, rfl⟩
  | cons y xs ih =>
    change (f y >>= fun _ => (xs ++ [x]).forM f).run s = .ok PUnit.unit s' ↔ _
    rw [run_bind_eq_ok]
    constructor
    · rintro ⟨u, s₁, hy, hrest⟩
      obtain ⟨s₂, hxs, hx⟩ := ih.mp hrest
      exact ⟨s₂, run_bind_eq_ok.mpr ⟨u, s₁, hy, hxs⟩, hx⟩
    · rintro ⟨s₂, hloop, hx⟩
      obtain ⟨u, s₁, hy, hxs⟩ := run_bind_eq_ok.mp hloop
      exact ⟨u, s₁, hy, ih.mpr ⟨s₂, hxs, hx⟩⟩

/-- The rule for a loop with an accumulator that never raises: what holds of the elements so far and the
accumulator. -/
theorem run_foldlM_of {f : β → α → PyM σ β} {P : List α → β → Prop} {l : List α} {b : β}
    (hinit : P [] b)
    (hstep : ∀ pre x b s, x ∈ l → P pre b → ∃ b' s', (f b x).run s = .ok b' s' ∧ P (pre ++ [x]) b')
    (s : σ) : ∃ b' s', (l.foldlM f b).run s = .ok b' s' ∧ P l b' := by
  suffices key : ∀ ys pre b s, (∀ y ∈ ys, y ∈ l) → P pre b →
      ∃ b' s', (ys.foldlM f b).run s = .ok b' s' ∧ P (pre ++ ys) b' from
    key l [] b s (fun _ h => h) hinit
  intro ys
  induction ys with
  | nil =>
    intro pre b s _ hpre
    exact ⟨b, s, rfl, by rwa [List.append_nil]⟩
  | cons y ys ih =>
    intro pre b s hmem hpre
    obtain ⟨b', s', hrun, hpre'⟩ := hstep pre y b s (hmem y (by simp)) hpre
    obtain ⟨b'', s'', hrest, hall⟩ := ih (pre ++ [y]) b' s' (fun z hz => hmem z (by simp [hz])) hpre'
    refine ⟨b'', s'', ?_, by simpa using hall⟩
    rw [List.foldlM_cons, run_bind_of_ok hrun, hrest]

/-- The same for a loop that collects results. -/
theorem run_mapM_of {f : α → PyM σ β} {Q : β → Prop} {l : List α}
    (hstep : ∀ x s, ∃ y s', (f x).run s = .ok y s' ∧ Q y) (s : σ) :
    ∃ ys s', (l.mapM f).run s = .ok ys s' ∧ ys.length = l.length ∧ ∀ y ∈ ys, Q y := by
  induction l generalizing s with
  | nil => exact ⟨[], s, rfl, rfl, by simp⟩
  | cons x xs ih =>
    obtain ⟨y, s₁, hrun, hy⟩ := hstep x s
    obtain ⟨ys, s₂, hrest, hlen, hys⟩ := ih s₁
    refine ⟨y :: ys, s₂, ?_, by rw [List.length_cons, List.length_cons, hlen], ?_⟩
    · rw [List.mapM_cons, run_bind_of_ok hrun, run_bind_of_ok hrest]
      rfl
    · simpa using ⟨hy, hys⟩

/-- A comprehension whose elements are computed one after the other, element by element. -/
theorem run_mapM_forall₂ {f : α → PyM σ β} {Q : α → β → Prop} {l : List α}
    (hstep : ∀ x ∈ l, ∀ s, ∃ y s', (f x).run s = .ok y s' ∧ Q x y) (s : σ) :
    ∃ ys s', (l.mapM f).run s = .ok ys s' ∧ List.Forall₂ Q l ys := by
  induction l generalizing s with
  | nil => exact ⟨[], s, rfl, .nil⟩
  | cons x xs ih =>
    obtain ⟨y, s₁, hrun, hy⟩ := hstep x List.mem_cons_self s
    obtain ⟨ys, s₂, hrest, hys⟩ := ih (fun z hz => hstep z (List.mem_cons_of_mem x hz)) s₁
    refine ⟨y :: ys, s₂, ?_, .cons hy hys⟩
    rw [List.mapM_cons, run_bind_of_ok hrun, run_bind_of_ok hrest]
    rfl

/-! ## `finally` and context managers -/

/-- A cleanup that returns keeps the outcome of the block it ends. -/
theorem run_tryFinally_of_ok {x : PyM σ α} {fin : PyM σ Unit} {s s' : σ}
    (h : fin.run (final x s) = .ok ⟨⟩ s') :
    (tryFinally x fin).run s = mapState (fun _ => s') (x.run s) := by
  simp only [tryFinally, final, EStateM.run] at h ⊢
  cases hx : x s with
  | ok a t => rw [hx] at h; simp only [h, mapState]
  | error e t => rw [hx] at h; simp only [h, mapState]

theorem mapState_ne_error {f : σ → σ} {r : EStateM.Result Error σ α} {e : Error} {s : σ}
    (h : ∀ s', r ≠ .error e s') : mapState f r ≠ .error e s := by
  cases r with
  | ok a t => simp [mapState]
  | error e' t =>
    intro he
    cases he
    exact h t rfl

/-- A context manager entered with its variable unset, around a body that leaves the variable alone,
has the outcome of its body and unsets the variable. -/
theorem run_withValue [DecidableEq β] {get : σ → Option β} {set : Option β → σ → σ} {v : β}
    {body : PyM σ α} {s : σ} (hnone : get s = none)
    (hbody : get (final body (set (some v) s)) = some v) :
    (withValue get set v body).run s = mapState (set none) (body.run (set (some v) s)) := by
  have hfin : ((do
      let s ← MonadState.get
      check (get s = some v)
      modify (set none)) : PyM σ Unit).run (final body (set (some v) s)) =
      .ok ⟨⟩ (set none (final body (set (some v) s))) := by
    rw [run_bind_of_ok (run_get _), run_bind_of_ok (run_check_of_true (by simp [hbody]) _),
      run_modify]
  rw [withValue, run_bind_of_ok (run_get _),
    run_bind_of_ok (run_check_of_true (by simp [hnone]) _), run_bind_of_ok (run_modify _ _),
    run_tryFinally_of_ok hfin, final]
  cases body.run (set (some v) s) <;> rfl

theorem final_withValue [DecidableEq β] {get : σ → Option β} {set : Option β → σ → σ} {v : β}
    {body : PyM σ α} {s : σ} (hnone : get s = none)
    (hbody : get (final body (set (some v) s)) = some v) :
    final (withValue get set v body) s = set none (final body (set (some v) s)) := by
  rw [final, run_withValue hnone hbody, final]
  cases body.run (set (some v) s) <;> rfl

/-- A context manager whose variable is set refuses to start. -/
theorem run_withValue_of_isSome [DecidableEq β] {get : σ → Option β} {set : Option β → σ → σ}
    {v : β} {body : PyM σ α} {s : σ} (hsome : (get s).isSome) :
    (withValue get set v body).run s = .error .assertionError s := by
  have hnone : (get s).isNone = false := by
    rw [← Option.not_isSome, hsome]
    rfl
  rw [withValue, run_bind_of_ok (run_get _), run_bind_of_error (run_check_of_false hnone _)]

/-! ## What a statement leaves alone -/

/-- `R` relates the state before a statement to the state after it, on both paths. -/
def Preserves (R : σ → σ → Prop) (x : PyM σ α) : Prop := ∀ s, R s (final x s)

section Preserves

variable {R : σ → σ → Prop}

/-- What a statement preserves relates the two states of a run that returns. -/
theorem Preserves.of_run {x : PyM σ α} (hx : Preserves R x) {s s' : σ} {a : α}
    (h : x.run s = .ok a s') : R s s' := by
  have hxs := hx s
  rwa [final, h] at hxs

theorem preserves_pure (hrefl : ∀ s, R s s) (a : α) : Preserves R (pure a : PyM σ α) := hrefl

theorem preserves_throw (hrefl : ∀ s, R s s) (e : Error) :
    Preserves R (throw e : PyM σ α) := hrefl

theorem preserves_modify {f : σ → σ} (h : ∀ s, R s (f s)) :
    Preserves R (modify f : PyM σ Unit) := h

theorem preserves_ofExcept (hrefl : ∀ s, R s s) (x : Except Error α) :
    Preserves R (ofExcept x : PyM σ α) := by
  cases x <;> exact hrefl

theorem preserves_check (hrefl : ∀ s, R s s) (b : Bool) : Preserves R (check b : PyM σ Unit) := by
  cases b <;> exact hrefl

theorem preserves_bind (htrans : ∀ a b c, R a b → R b c → R a c) {x : PyM σ α}
    {f : α → PyM σ β} (hx : Preserves R x) (hf : ∀ a, Preserves R (f a)) :
    Preserves R (x >>= f) := by
  intro s
  have hxs := hx s
  simp only [final] at hxs ⊢
  cases hr : x.run s with
  | ok a s' =>
    rw [hr] at hxs
    rw [run_bind_of_ok hr]
    exact htrans _ _ _ hxs (hf a s')
  | error e s' =>
    rw [hr] at hxs
    rw [run_bind_of_error hr]
    exact hxs

theorem preserves_suppress {x : PyM σ α} (h : Preserves R x) : Preserves R (suppress x) := h

theorem preserves_get_bind {f : σ → PyM σ α} (h : ∀ s, R s (final (f s) s)) :
    Preserves R (get >>= f) := h

theorem preserves_forM (hrefl : ∀ s, R s s) (htrans : ∀ a b c, R a b → R b c → R a c)
    {f : β → PyM σ PUnit} {xs : List β} (hf : ∀ x ∈ xs, Preserves R (f x)) :
    Preserves R (xs.forM f) := by
  induction xs with
  | nil => exact preserves_pure hrefl _
  | cons x xs ih =>
    exact preserves_bind htrans (hf x (by simp)) fun _ => ih fun y hy => hf y (by simp [hy])

theorem preserves_foldlM (hrefl : ∀ s, R s s) (htrans : ∀ a b c, R a b → R b c → R a c)
    {f : β → α → PyM σ β} (hf : ∀ b a, Preserves R (f b a)) (xs : List α) (b : β) :
    Preserves R (xs.foldlM f b) := by
  induction xs generalizing b with
  | nil => exact preserves_pure hrefl b
  | cons x xs ih =>
    rw [List.foldlM_cons]
    exact preserves_bind htrans (hf b x) fun b' => ih b'

/-- The cleanup runs in the state that the block left, on both paths. -/
theorem final_tryFinally (x : PyM σ α) (fin : PyM σ Unit) (s : σ) :
    final (tryFinally x fin) s = final fin (final x s) := by
  simp only [tryFinally, final, EStateM.run]
  cases x s with
  | ok a s' => dsimp only; cases fin s' <;> rfl
  | error e s' => dsimp only; cases fin s' <;> rfl

theorem preserves_tryFinally (htrans : ∀ a b c, R a b → R b c → R a c) {x : PyM σ α}
    {fin : PyM σ Unit} (hx : Preserves R x) (hfin : Preserves R fin) :
    Preserves R (tryFinally x fin) := by
  intro s
  rw [final_tryFinally]
  exact htrans _ _ _ (hx s) (hfin _)

theorem preserves_withValue [DecidableEq β] (hrefl : ∀ s, R s s)
    (htrans : ∀ a b c, R a b → R b c → R a c) {get : σ → Option β} {set : Option β → σ → σ}
    (hset : ∀ v s, R s (set v s)) (v : β) {body : PyM σ α} (hbody : Preserves R body) :
    Preserves R (withValue get set v body) := by
  refine preserves_get_bind fun s => ?_
  refine preserves_bind htrans (preserves_check hrefl _) (fun _ => ?_) s
  refine preserves_bind htrans (preserves_modify (hset (some v))) fun _ => ?_
  refine preserves_tryFinally htrans hbody (preserves_get_bind fun s' => ?_)
  exact preserves_bind htrans (preserves_check hrefl _)
    (fun _ => preserves_modify (hset none)) s'

/-- What the first part establishes and the second part keeps holds in the end. -/
theorem final_bind_of {P : σ → Prop} {x : PyM σ α} {f : α → PyM σ β} {s : σ} (hx : P (final x s))
    (hf : ∀ a, Preserves (fun s s' => P s → P s') (f a)) : P (final (x >>= f) s) := by
  simp only [final] at hx ⊢
  cases hr : x.run s with
  | ok a s' =>
    rw [hr] at hx
    rw [run_bind_of_ok hr]
    exact hf a s' hx
  | error e s' =>
    rw [hr] at hx
    rw [run_bind_of_error hr]
    exact hx

/-- What the iterations of a loop emit, up to the one that raises. -/
def emitted {γ : Type} (e : β → σ → List γ) (f : β → PyM σ PUnit) : List β → σ → List γ
  | [], _ => []
  | x :: xs, s =>
    e x s ++
      match (f x).run s with
      | .ok _ s' => emitted e f xs s'
      | .error _ _ => []

/-- If every iteration appends what it emits to a log, so does the loop, however it ends. -/
theorem log_forM {γ : Type} {log : σ → List γ} {P : σ → Prop} {e : β → σ → List γ}
    {f : β → PyM σ PUnit} (hP : ∀ x, Preserves (fun s s' => P s → P s') (f x))
    (hf : ∀ x s, P s → log (final (f x) s) = log s ++ e x s) (xs : List β) {s : σ} (hs : P s) :
    log (final (xs.forM f) s) = log s ++ emitted e f xs s := by
  induction xs generalizing s with
  | nil => exact (List.append_nil _).symm
  | cons x xs ih =>
    have hx := hf x s hs
    have hnext := hP x s hs
    change log (final (f x >>= fun _ => xs.forM f) s) = _
    rw [emitted, ← List.append_assoc, ← hx]
    cases hrun : (f x).run s with
    | ok a s' =>
      simp only [final, hrun] at hnext
      rw [final, run_bind_of_ok hrun, ← final, ih hnext]
      simp only [final, hrun]
    | error e s' =>
      rw [final, run_bind_of_error hrun, final, hrun]
      exact (List.append_nil _).symm

end Preserves

/-! ## Exceptions a statement cannot raise -/

/-- The statement never raises `e`, in any state. -/
def NeverRaises (e : Error) (x : PyM σ α) : Prop := ∀ s s', x.run s ≠ .error e s'

section NeverRaises

variable {e : Error}

theorem neverRaises_pure (a : α) : NeverRaises e (pure a : PyM σ α) := by
  intro s s' h
  cases h

theorem neverRaises_modify (f : σ → σ) : NeverRaises e (modify f : PyM σ Unit) := by
  intro s s' h
  cases h

theorem neverRaises_set (s : σ) : NeverRaises e (set s : PyM σ PUnit) := by
  intro t t' h
  cases h

theorem neverRaises_get_bind {f : σ → PyM σ α} (h : ∀ s, NeverRaises e (f s)) :
    NeverRaises e (get >>= f) := fun s => h s s

theorem neverRaises_ofExcept {x : Except Error α} (h : x ≠ .error e) :
    NeverRaises e (ofExcept x : PyM σ α) := by
  intro s s' hrun
  cases x with
  | ok a => cases hrun
  | error e' => cases hrun; exact h rfl

theorem neverRaises_bind {x : PyM σ α} {f : α → PyM σ β} (hx : NeverRaises e x)
    (hf : ∀ a, NeverRaises e (f a)) : NeverRaises e (x >>= f) := by
  intro s s'
  cases hr : x.run s with
  | ok a t => rw [run_bind_of_ok hr]; exact hf a t s'
  | error e' t =>
    rw [run_bind_of_error hr]
    intro h
    cases h
    exact hx s s' hr

theorem neverRaises_forM {f : β → PyM σ PUnit} {xs : List β} (hf : ∀ x, NeverRaises e (f x)) :
    NeverRaises e (xs.forM f) := by
  induction xs with
  | nil => exact neverRaises_pure _
  | cons x xs ih => exact neverRaises_bind (hf x) fun _ => ih

theorem neverRaises_zoom {get : σ → τ} {set : τ → σ → σ} {x : PyM τ α} (hx : NeverRaises e x) :
    NeverRaises e (zoom get set x) := by
  intro s s' h
  simp only [zoom, EStateM.run] at h
  cases hr : x (get s) with
  | ok a t => rw [hr] at h; cases h
  | error e' t => rw [hr] at h; cases h; exact hx _ _ hr

end NeverRaises

end PyM

/-- A sequence returns if and only if both parts do. -/
theorem except_bind_eq_ok {ε α β : Type} {x : Except ε α} {f : α → Except ε β} {b : β} :
    (x >>= f) = .ok b ↔ ∃ a, x = .ok a ∧ f a = .ok b := by
  cases x with
  | ok a => exact ⟨fun h => ⟨a, rfl, h⟩, fun ⟨a', ha, h⟩ => by cases ha; exact h⟩
  | error e => exact ⟨nofun, fun ⟨a', ha, _⟩ => nomatch ha⟩

theorem except_map_eq_ok {ε α β : Type} {x : Except ε α} {f : α → β} {b : β} :
    x.map f = .ok b ↔ ∃ a, x = .ok a ∧ f a = b := by
  cases x <;> simp [Except.map]

/-- The body of a loop that returns has returned for every element. -/
theorem forall_of_mapM_eq_ok {ε α β : Type} {f : α → Except ε β} {xs : List α} {ys : List β}
    (h : xs.mapM f = .ok ys) : ∀ x ∈ xs, ∃ y, f x = .ok y := by
  induction xs generalizing ys with
  | nil => simp
  | cons x xs ih =>
    rw [List.mapM_cons] at h
    obtain ⟨y, hy, h⟩ := except_bind_eq_ok.mp h
    obtain ⟨ys', hys, -⟩ := except_bind_eq_ok.mp h
    intro z hz
    rcases List.mem_cons.mp hz with rfl | hz
    · exact ⟨y, hy⟩
    · exact ih hys z hz

/-- Every result of a loop is that of an element. -/
theorem mem_of_mapM_eq_ok {ε α β : Type} {f : α → Except ε β} {xs : List α} {ys : List β}
    (h : xs.mapM f = .ok ys) : ∀ y ∈ ys, ∃ x ∈ xs, f x = .ok y := by
  induction xs generalizing ys with
  | nil => cases h; simp
  | cons x xs ih =>
    rw [List.mapM_cons] at h
    obtain ⟨y, hy, h⟩ := except_bind_eq_ok.mp h
    obtain ⟨ys', hys, hret⟩ := except_bind_eq_ok.mp h
    cases hret
    intro z hz
    rcases List.mem_cons.mp hz with rfl | hz
    · exact ⟨x, by simp, hy⟩
    · obtain ⟨x', hx', hfx'⟩ := ih hys z hz
      exact ⟨x', by simp [hx'], hfx'⟩

theorem length_of_mapM_eq_ok {ε α β : Type} {f : α → Except ε β} {xs : List α} {ys : List β}
    (h : xs.mapM f = .ok ys) : ys.length = xs.length := by
  induction xs generalizing ys with
  | nil => cases h; rfl
  | cons x xs ih =>
    rw [List.mapM_cons] at h
    obtain ⟨y, -, h⟩ := except_bind_eq_ok.mp h
    obtain ⟨ys', hys, hret⟩ := except_bind_eq_ok.mp h
    cases hret
    rw [List.length_cons, List.length_cons, ih hys]

/-- The results of a loop stand at the places of their elements. -/
theorem getElem?_of_mapM_eq_ok {ε α β : Type} {f : α → Except ε β} {xs : List α} {ys : List β}
    (h : xs.mapM f = .ok ys) {i : ℕ} {x : α} (hx : xs[i]? = some x) :
    ∃ y, f x = .ok y ∧ ys[i]? = some y := by
  induction xs generalizing ys i with
  | nil => cases hx
  | cons x' xs ih =>
    rw [List.mapM_cons] at h
    obtain ⟨y, hy, h⟩ := except_bind_eq_ok.mp h
    obtain ⟨ys', hys, hret⟩ := except_bind_eq_ok.mp h
    cases hret
    cases i with
    | zero =>
      cases hx
      exact ⟨y, hy, rfl⟩
    | succ i => exact ih hys hx

/-- What a loop keeps of its elements, read off its results. -/
theorem map_of_mapM_eq_ok {ε α β γ : Type} {f : α → Except ε β} {g : β → γ} {g' : α → γ}
    (hf : ∀ x y, f x = .ok y → g y = g' x) {xs : List α} {ys : List β} (h : xs.mapM f = .ok ys) :
    ys.map g = xs.map g' := by
  induction xs generalizing ys with
  | nil => cases h; rfl
  | cons x xs ih =>
    rw [List.mapM_cons] at h
    obtain ⟨y, hy, h⟩ := except_bind_eq_ok.mp h
    obtain ⟨ys', hys, hret⟩ := except_bind_eq_ok.mp h
    cases hret
    rw [List.map_cons, List.map_cons, hf x y hy, ih hys]

/-- A loop whose body never raises is a map. -/
theorem mapM_eq_ok_map {ε α β : Type} {f : α → Except ε β} {g : α → β} {xs : List α}
    (h : ∀ x ∈ xs, f x = .ok (g x)) : xs.mapM f = .ok (xs.map g) := by
  induction xs with
  | nil => rfl
  | cons x xs ih =>
    rw [List.mapM_cons, h x (by simp), ih fun y hy => h y (by simp [hy])]
    rfl

/-- A loop whose body always returns, returns. -/
theorem exists_mapM_eq_ok {ε α β : Type} {f : α → Except ε β} (xs : List α)
    (h : ∀ x ∈ xs, ∃ y, f x = .ok y) : ∃ ys, xs.mapM f = .ok ys := by
  induction xs with
  | nil => exact ⟨[], rfl⟩
  | cons x xs ih =>
    obtain ⟨y, hy⟩ := h x (by simp)
    obtain ⟨ys, hys⟩ := ih fun z hz => h z (by simp [hz])
    exact ⟨y :: ys, by rw [List.mapM_cons, hy, hys]; rfl⟩

end Py
