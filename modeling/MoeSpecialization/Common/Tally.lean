import MoeSpecialization.Common.PyM
import Mathlib.Algebra.BigOperators.Group.List.Basic

/-!
# Loops that add to a state

Most loops of a statistics program do the same thing: they run through a list and add to dictionaries.
Reading the state through a measure `μ` into a commutative monoid, such a statement is described by the
condition under which it returns, and by what it then adds. `Adds` states both, and the rules below
compute them for a whole loop from its body.

A loop that raises leaves what it has added so far. `FirstDecides` says whether that is anything: of the
things the loop reads, the first one either raises or is added, and nothing is taken back afterwards.
-/

namespace Py

namespace PyM

variable {σ α β M : Type} [AddCommMonoid M] {μ : σ → M}

/-- The statement returns exactly if `ok`, and then adds `δ` to the measure of the state. -/
def Adds (μ : σ → M) (ok : Prop) (δ : M) (x : PyM σ α) : Prop :=
  ∀ s, (ok → ∃ a s', x.run s = .ok a s' ∧ μ s' = μ s + δ) ∧ (¬ ok → ∃ e s', x.run s = .error e s')

theorem adds_pure {ok : Prop} {δ : M} (hok : ok) (hδ : δ = 0) (a : α) :
    Adds μ ok δ (pure a : PyM σ α) :=
  fun s => ⟨fun _ => ⟨a, s, rfl, by rw [hδ, add_zero]⟩, fun h => absurd hok h⟩

theorem adds_throw {ok : Prop} {δ : M} (hok : ¬ ok) (e : Error) : Adds μ ok δ (throw e : PyM σ α) :=
  fun s => ⟨fun h => absurd h hok, fun _ => ⟨e, s, rfl⟩⟩

theorem adds_modify {ok : Prop} {f : σ → σ} {δ : M} (hok : ok) (h : ∀ s, μ (f s) = μ s + δ) :
    Adds μ ok δ (modify f : PyM σ Unit) :=
  fun s => ⟨fun _ => ⟨(), f s, rfl, h s⟩, fun h => absurd hok h⟩

theorem Adds.congr {ok ok' : Prop} {δ δ' : M} {x : PyM σ α} (h : Adds μ ok δ x) (hok : ok ↔ ok')
    (hδ : ok → δ = δ') : Adds μ ok' δ' x := by
  intro s
  refine ⟨fun h' => ?_, fun h' => (h s).2 fun h'' => h' (hok.mp h'')⟩
  rw [← hδ (hok.mpr h')]
  exact (h s).1 (hok.mpr h')

theorem adds_bind {ok ok' : Prop} {δ δ' : M} {x : PyM σ α} {f : α → PyM σ β} (hx : Adds μ ok δ x)
    (hf : ∀ a, Adds μ ok' δ' (f a)) : Adds μ (ok ∧ ok') (δ + δ') (x >>= f) := by
  intro s
  by_cases hok : ok
  · obtain ⟨a, s', hrun, hμ⟩ := (hx s).1 hok
    rw [run_bind_of_ok hrun]
    refine ⟨fun h => ?_, fun h => (hf a s').2 fun h' => h ⟨hok, h'⟩⟩
    obtain ⟨b, s'', hrun', hμ'⟩ := (hf a s').1 h.2
    exact ⟨b, s'', hrun', by rw [hμ', hμ, add_assoc]⟩
  · obtain ⟨e, s', hrun⟩ := (hx s).2 hok
    rw [run_bind_of_error hrun]
    exact ⟨fun h => absurd h.1 hok, fun _ => ⟨e, s', rfl⟩⟩

/-- A loop with an accumulator that the measure does not see. -/
theorem adds_foldlM {f : β → α → PyM σ β} {ok : α → Prop} {δ : α → M}
    (hf : ∀ b a, Adds μ (ok a) (δ a) (f b a)) (xs : List α) (b : β) :
    Adds μ (∀ a ∈ xs, ok a) (xs.map δ).sum (xs.foldlM f b) := by
  induction xs generalizing b with
  | nil => exact adds_pure (by simp) rfl b
  | cons x xs ih =>
    rw [List.foldlM_cons]
    exact (adds_bind (hf b x) fun b' => ih b').congr (by simp) fun _ => by simp

theorem adds_forM {f : α → PyM σ PUnit} {ok : α → Prop} {δ : α → M}
    (hf : ∀ a, Adds μ (ok a) (δ a) (f a)) (xs : List α) :
    Adds μ (∀ a ∈ xs, ok a) (xs.map δ).sum (xs.forM f) := by
  induction xs with
  | nil => exact adds_pure (by simp) rfl _
  | cons x xs ih =>
    change Adds μ _ _ (f x >>= fun _ => xs.forM f)
    exact (adds_bind (hf x) fun _ => ih).congr (by simp) fun _ => by simp

/-! ## Loops that raise -/

section First

variable {ι : Type} {grew : σ → σ → Prop} {ids ids' : List (Option ι)}

/-- The first of the things that a statement reads decides: if there is none, the statement returns with
the state as it was; `none` raises before anything is changed; anything else makes the state grow. The
state never shrinks again. -/
structure FirstDecides (grew : σ → σ → Prop) (ids : List (Option ι)) (x : PyM σ α) : Prop where
  nothing : ids = [] → ∀ s, ∃ a, x.run s = .ok a s
  null : ids.head? = some none → ∀ s, ∃ e, x.run s = .error e s
  counts : ∀ i, ids.head? = some (some i) → ∀ s, grew s (final x s)
  keeps : ∀ s₀, Preserves (fun s s' => grew s₀ s → grew s₀ s') x

theorem grew_trans (s₀ : σ) (s s' s'' : σ) (h : grew s₀ s → grew s₀ s') (h' : grew s₀ s' → grew s₀ s'') :
    grew s₀ s → grew s₀ s'' := fun hs => h' (h hs)

theorem firstDecides_pure (a : α) : FirstDecides grew ([] : List (Option ι)) (pure a : PyM σ α) where
  nothing _ _ := ⟨a, rfl⟩
  null := nofun
  counts := nofun
  keeps _ := preserves_pure (fun _ => id) a

theorem firstDecides_throw (e : Error) :
    FirstDecides grew ([none] : List (Option ι)) (throw e : PyM σ α) where
  nothing := nofun
  null _ _ := ⟨e, rfl⟩
  counts := nofun
  keeps _ := preserves_throw (fun _ => id) e

/-- A statement that only reads on after the state has grown. -/
theorem firstDecides_bind_of_nil {x : PyM σ α} {f : α → PyM σ β} (hx : FirstDecides grew ids x)
    (hnil : ids = [] → ∀ a, FirstDecides grew ids' (f a)) (hids' : ids ≠ [] → ids' = [])
    (hf : ∀ a s₀, Preserves (fun s s' => grew s₀ s → grew s₀ s') (f a)) :
    FirstDecides grew (ids ++ ids') (x >>= f) := by
  have hkeeps : ∀ s₀, Preserves (fun s s' => grew s₀ s → grew s₀ s') (x >>= f) := fun s₀ =>
    preserves_bind (grew_trans s₀) (hx.keeps s₀) fun a => hf a s₀
  cases ids with
  | nil =>
    -- the first part returns and changes nothing, so the second decides
    have hrun : ∀ s, ∃ a, (x >>= f).run s = (f a).run s := fun s => by
      obtain ⟨a, ha⟩ := hx.nothing rfl s
      exact ⟨a, run_bind_of_ok ha⟩
    refine ⟨fun h s => ?_, fun h s => ?_, fun i h s => ?_, hkeeps⟩
    · obtain ⟨a, ha⟩ := hrun s
      rw [ha]
      exact (hnil rfl a).nothing h s
    · obtain ⟨a, ha⟩ := hrun s
      rw [ha]
      exact (hnil rfl a).null h s
    · obtain ⟨a, ha⟩ := hrun s
      rw [final, ha]
      exact (hnil rfl a).counts i h s
  | cons id ids =>
    -- the first part has something to read, which decides; the second part takes nothing back
    rw [hids' (by simp), List.append_nil]
    refine ⟨by simp, fun h s => ?_, fun i h s => ?_, hkeeps⟩
    · obtain ⟨e, he⟩ := hx.null h s
      exact ⟨e, run_bind_of_error he⟩
    · have hcount := hx.counts i h s
      cases hrun : x.run s with
      | ok a s' =>
        rw [final, hrun] at hcount
        rw [final, run_bind_of_ok hrun]
        exact hf a s s' hcount
      | error e s' =>
        rw [final, hrun] at hcount
        rw [final, run_bind_of_error hrun]
        exact hcount

theorem firstDecides_bind {x : PyM σ α} {f : α → PyM σ β} (hx : FirstDecides grew ids x)
    (hf : ∀ a, FirstDecides grew ids' (f a)) : FirstDecides grew (ids ++ ids') (x >>= f) := by
  cases ids with
  | nil => exact firstDecides_bind_of_nil hx (fun _ => hf) (absurd rfl) fun a => (hf a).keeps
  | cons id ids =>
    have h : FirstDecides grew ((id :: ids) ++ []) (x >>= f) :=
      firstDecides_bind_of_nil hx nofun (fun _ => rfl) fun a => (hf a).keeps
    rw [List.append_nil] at h
    exact ⟨nofun, fun hn => h.null hn, fun i hn => h.counts i hn, h.keeps⟩

theorem firstDecides_foldlM {f : β → α → PyM σ β} {ids : α → List (Option ι)}
    (hf : ∀ b a, FirstDecides grew (ids a) (f b a)) (xs : List α) (b : β) :
    FirstDecides grew (xs.flatMap ids) (xs.foldlM f b) := by
  induction xs generalizing b with
  | nil => exact firstDecides_pure b
  | cons x xs ih =>
    rw [List.foldlM_cons, List.flatMap_cons]
    exact firstDecides_bind (hf b x) ih

theorem firstDecides_forM {f : α → PyM σ PUnit} {ids : α → List (Option ι)}
    (hf : ∀ a, FirstDecides grew (ids a) (f a)) (xs : List α) :
    FirstDecides grew (xs.flatMap ids) (xs.forM f) := by
  induction xs with
  | nil => exact firstDecides_pure _
  | cons x xs ih =>
    change FirstDecides grew _ (f x >>= fun _ => xs.forM f)
    rw [List.flatMap_cons]
    exact firstDecides_bind (hf x) fun _ => ih

end First

end PyM

end Py
