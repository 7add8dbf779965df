import Mathlib.Data.List.Nodup
import Mathlib.Algebra.Group.Basic

/-!
# Insertion-ordered dictionaries

A Python `dict` is a finite map that remembers the order in which its keys were first written.
`PyDict κ ν` is that object: an association list whose keys are distinct, the distinctness being a
field, so that a dictionary with a repeated key cannot be built. Writing to an existing key keeps its
position, writing to a fresh key appends it.

`modify` is the read-modify-write `d[k] = f(d[k])` on a `defaultdict`. `addAt` is its two-level form
`d[k][k'] += v` on a `defaultdict` of `defaultdict`s, read back by `at2`; `at2_addAt` is the only fact
about the pair that accumulation proofs need.
-/

namespace Py

/-- A Python dictionary: the entries in insertion order, with distinct keys. -/
structure PyDict (κ ν : Type*) where
  entries : List (κ × ν)
  nodup : (entries.map Prod.fst).Nodup

namespace PyDict

variable {κ κ' ν : Type*}

@[ext]
theorem ext {d₁ d₂ : PyDict κ ν} (h : d₁.entries = d₂.entries) : d₁ = d₂ := by
  cases d₁; cases d₂; congr

instance [DecidableEq κ] [DecidableEq ν] : DecidableEq (PyDict κ ν) := fun d₁ d₂ =>
  decidable_of_iff (d₁.entries = d₂.entries) ⟨ext, fun h => h ▸ rfl⟩

/-- The empty dictionary `{}`. -/
def empty : PyDict κ ν := ⟨[], List.nodup_nil⟩

instance : EmptyCollection (PyDict κ ν) := ⟨empty⟩

instance : Inhabited (PyDict κ ν) := ⟨empty⟩

@[simp] theorem entries_empty : (∅ : PyDict κ ν).entries = [] := rfl

/-- `d.keys()`, in insertion order. -/
def keys (d : PyDict κ ν) : List κ := d.entries.map Prod.fst

/-- `d.values()`, in insertion order. -/
def values (d : PyDict κ ν) : List ν := d.entries.map Prod.snd

/-- The same keys with other values. -/
def mapValues {ν' : Type*} (f : ν → ν') (d : PyDict κ ν) : PyDict κ ν' where
  entries := d.entries.map fun e => (e.1, f e.2)
  nodup := by
    rw [List.map_map]
    exact d.nodup

@[simp] theorem values_mapValues {ν' : Type*} (f : ν → ν') (d : PyDict κ ν) :
    (d.mapValues f).values = d.values.map f := by
  rw [values, values, mapValues, List.map_map, List.map_map]
  rfl

theorem nodup_keys (d : PyDict κ ν) : d.keys.Nodup := d.nodup

/-- A dictionary of two entries has one under another key. -/
theorem exists_key_ne (d : PyDict κ ν) (k : κ) (h : 2 ≤ d.entries.length) : ∃ e ∈ d.entries, e.1 ≠ k := by
  by_contra hcon
  push Not at hcon
  have hkeys : d.keys = List.replicate d.entries.length k := by
    refine List.eq_replicate_iff.mpr ⟨List.length_map _, fun k' hk' => ?_⟩
    obtain ⟨e, he, rfl⟩ := List.mem_map.mp hk'
    exact hcon e he
  have hnodup := d.nodup_keys
  rw [hkeys, List.nodup_replicate] at hnodup
  omega

section Access

variable [DecidableEq κ] [DecidableEq κ']

/-- `d.get(k)`. -/
def get? (d : PyDict κ ν) (k : κ) : Option ν := d.entries.lookup k

/-- `d.get(k, dflt)`. -/
def getD (d : PyDict κ ν) (k : κ) (dflt : ν) : ν := (d.get? k).getD dflt

/-- The entry list of `d[k] = v`: overwrite in place, or append a fresh key. -/
def setEntries : List (κ × ν) → κ → ν → List (κ × ν)
  | [], k, v => [(k, v)]
  | (k', v') :: es, k, v => if k' = k then (k, v) :: es else (k', v') :: setEntries es k v

theorem map_fst_setEntries (es : List (κ × ν)) (k : κ) (v : ν) :
    (setEntries es k v).map Prod.fst =
      if k ∈ es.map Prod.fst then es.map Prod.fst else es.map Prod.fst ++ [k] := by
  induction es with
  | nil => simp [setEntries]
  | cons e es ih =>
    obtain ⟨k', v'⟩ := e
    by_cases hk : k' = k
    · subst hk
      simp [setEntries]
    · have hk' : k ≠ k' := fun h => hk h.symm
      simp only [setEntries, if_neg hk, List.map_cons, ih, List.mem_cons, hk', false_or]
      split <;> simp

/-- `d[k] = v`. -/
def set (d : PyDict κ ν) (k : κ) (v : ν) : PyDict κ ν where
  entries := setEntries d.entries k v
  nodup := by
    rw [map_fst_setEntries]
    split
    · exact d.nodup
    · rename_i hk
      rw [List.nodup_append]
      exact ⟨d.nodup, by simp, fun a ha b hb => by
        rw [List.mem_singleton] at hb
        exact fun hab => hk (hb ▸ hab ▸ ha)⟩

/-- `d[k] = f(d[k])` on a `defaultdict` whose missing values are `dflt`. -/
def modify (d : PyDict κ ν) (k : κ) (dflt : ν) (f : ν → ν) : PyDict κ ν :=
  d.set k (f (d.getD k dflt))

@[simp] theorem get?_empty (k : κ) : (∅ : PyDict κ ν).get? k = none := rfl

@[simp] theorem getD_empty (k : κ) (dflt : ν) : (∅ : PyDict κ ν).getD k dflt = dflt := rfl

private theorem lookup_cons_ite (k' j : κ) (v' : ν) (es : List (κ × ν)) :
    ((k', v') :: es).lookup j = if j = k' then some v' else es.lookup j := by
  by_cases h : j = k'
  · simp [h]
  · have hb : (j == k') = false := by simpa using h
    rw [List.lookup_cons, hb, if_neg h]

private theorem lookup_setEntries (es : List (κ × ν)) (k j : κ) (v : ν) :
    (setEntries es k v).lookup j = if j = k then some v else es.lookup j := by
  induction es with
  | nil => rw [setEntries, lookup_cons_ite]
  | cons e es ih =>
    obtain ⟨k', v'⟩ := e
    by_cases hk : k' = k
    · subst hk
      rw [setEntries, if_pos rfl, lookup_cons_ite, lookup_cons_ite]
      split <;> rfl
    · rw [setEntries, if_neg hk, lookup_cons_ite, lookup_cons_ite, ih]
      by_cases hj : j = k'
      · subst hj
        rw [if_pos rfl, if_neg hk, if_pos rfl]
      · rw [if_neg hj, if_neg hj]

/-- Reading any key after a write. -/
theorem get?_set (d : PyDict κ ν) (k j : κ) (v : ν) :
    (d.set k v).get? j = if j = k then some v else d.get? j :=
  lookup_setEntries d.entries k j v

@[simp] theorem get?_set_self (d : PyDict κ ν) (k : κ) (v : ν) : (d.set k v).get? k = some v := by
  rw [get?_set, if_pos rfl]

theorem get?_set_ne (d : PyDict κ ν) {k j : κ} (v : ν) (h : j ≠ k) :
    (d.set k v).get? j = d.get? j := by
  rw [get?_set, if_neg h]

theorem getD_set (d : PyDict κ ν) (k j : κ) (v dflt : ν) :
    (d.set k v).getD j dflt = if j = k then v else d.getD j dflt := by
  rw [getD, get?_set]
  split <;> rfl

theorem getD_modify (d : PyDict κ ν) (k j : κ) (dflt : ν) (f : ν → ν) :
    (d.modify k dflt f).getD j dflt = if j = k then f (d.getD k dflt) else d.getD j dflt := by
  rw [modify, getD_set]

theorem get?_mapValues {ν' : Type*} (f : ν → ν') (d : PyDict κ ν) (k : κ) :
    (d.mapValues f).get? k = (d.get? k).map f := by
  obtain ⟨es, hes⟩ := d
  simp only [get?, mapValues]
  clear hes
  induction es with
  | nil => rfl
  | cons e es ih =>
    rw [List.map_cons, lookup_cons_ite, lookup_cons_ite, ih]
    split <;> rfl

theorem keys_set (d : PyDict κ ν) (k : κ) (v : ν) :
    (d.set k v).keys = if k ∈ d.keys then d.keys else d.keys ++ [k] :=
  map_fst_setEntries d.entries k v

theorem mem_keys_set {d : PyDict κ ν} {k j : κ} {v : ν} :
    j ∈ (d.set k v).keys ↔ j ∈ d.keys ∨ j = k := by
  rw [keys_set]
  split
  · rename_i hk
    exact ⟨Or.inl, fun h => h.elim id fun h => h ▸ hk⟩
  · simp

theorem get?_isSome_iff {d : PyDict κ ν} {k : κ} : (d.get? k).isSome ↔ k ∈ d.keys := by
  obtain ⟨es, hes⟩ := d
  simp only [get?, keys]
  clear hes
  induction es with
  | nil => simp
  | cons e es ih =>
    obtain ⟨k', v'⟩ := e
    rw [lookup_cons_ite, List.map_cons, List.mem_cons]
    by_cases h : k = k' <;> simp [h, ih]

theorem get?_eq_some_iff {d : PyDict κ ν} {k : κ} {v : ν} :
    d.get? k = some v ↔ (k, v) ∈ d.entries := by
  obtain ⟨es, hes⟩ := d
  simp only [get?]
  induction es with
  | nil => simp
  | cons e es ih =>
    obtain ⟨k', v'⟩ := e
    rw [List.map_cons, List.nodup_cons] at hes
    rw [lookup_cons_ite, List.mem_cons, Prod.mk.injEq]
    by_cases h : k = k'
    · subst h
      have hfresh : (k, v) ∉ es := fun hmem =>
        hes.1 (List.mem_map.mpr ⟨(k, v), hmem, rfl⟩)
      simp [hfresh, eq_comm]
    · simp [h, ih hes.2]

/-- Storing twice under one key is storing the second value. -/
theorem set_set (d : PyDict κ ν) (k : κ) (v v' : ν) : (d.set k v).set k v' = d.set k v' := by
  obtain ⟨es, hes⟩ := d
  apply ext
  simp only [set]
  clear hes
  induction es with
  | nil => simp [setEntries]
  | cons e es ih =>
    obtain ⟨k', w⟩ := e
    by_cases h : k' = k
    · simp [setEntries, h]
    · simp only [setEntries, if_neg h, ih]

/-- A filter does not see a store of one rejected value over another. -/
theorem filter_entries_set {d : PyDict κ ν} {k : κ} {v : ν} (p : κ × ν → Bool) (hv : p (k, v) = false)
    (hd : ∀ w, d.get? k = some w → p (k, w) = false) :
    (d.set k v).entries.filter p = d.entries.filter p := by
  obtain ⟨es, hes⟩ := d
  simp only [get?_eq_some_iff, set] at hd ⊢
  clear hes
  induction es with
  | nil => simp [setEntries, hv]
  | cons e es ih =>
    obtain ⟨k', w⟩ := e
    by_cases h : k' = k
    · subst h
      simp [setEntries, hv, hd w (by simp)]
    · rw [setEntries, if_neg h, List.filter_cons, List.filter_cons,
        ih fun w hw => hd w (List.mem_cons_of_mem _ hw)]

theorem entries_set_ne_nil (d : PyDict κ ν) (k : κ) (v : ν) : (d.set k v).entries ≠ [] := by
  intro h
  have hget : (d.set k v).get? k = some v := get?_set_self d k v
  rw [get?_eq_some_iff, h] at hget
  cases hget

theorem mem_values_iff {d : PyDict κ ν} {v : ν} : v ∈ d.values ↔ ∃ k, d.get? k = some v := by
  simp only [values, List.mem_map, get?_eq_some_iff]
  exact ⟨fun ⟨p, hp, hv⟩ => ⟨p.1, hv ▸ hp⟩, fun ⟨k, hk⟩ => ⟨(k, v), hk, rfl⟩⟩

/-- Extending the value of one key extends what the values hold in all, up to the order. -/
theorem flatMap_values_modify {β : Type*} (d : PyDict κ ν) (k : κ) (dflt : ν) (f : ν → ν)
    (g : ν → List β) {extra : List β} (hdflt : g dflt = [])
    (hf : g (f (d.getD k dflt)) = g (d.getD k dflt) ++ extra) :
    ((d.modify k dflt f).values.flatMap g).Perm (d.values.flatMap g ++ extra) := by
  suffices key : ∀ (es : List (κ × ν)) (v : ν), g v = g ((es.lookup k).getD dflt) ++ extra →
      (((setEntries es k v).map Prod.snd).flatMap g).Perm ((es.map Prod.snd).flatMap g ++ extra) from
    key d.entries _ hf
  intro es v
  induction es with
  | nil =>
    intro hv
    simpa [setEntries, hdflt] using (List.Perm.of_eq hv)
  | cons e es ih =>
    obtain ⟨k', v'⟩ := e
    intro hv
    rw [setEntries]
    by_cases hk : k' = k
    · rw [hk, lookup_cons_ite, if_pos rfl, Option.getD_some] at hv
      rw [if_pos hk, List.map_cons, List.map_cons, List.flatMap_cons, List.flatMap_cons, hv]
      simpa using List.perm_append_comm.append_left (g v')
    · rw [lookup_cons_ite, if_neg (Ne.symm hk)] at hv
      rw [if_neg hk, List.map_cons, List.map_cons, List.flatMap_cons, List.flatMap_cons,
        List.append_assoc]
      exact (ih hv).append_left (g v')

theorem getD_eq_of_get?_eq_some {d : PyDict κ ν} {k : κ} {v dflt : ν} (h : d.get? k = some v) :
    d.getD k dflt = v := by
  rw [getD, h, Option.getD_some]

/-- A value other than the default was stored. -/
theorem exists_get?_of_getD_ne {d : PyDict κ ν} {k : κ} {dflt : ν} (h : d.getD k dflt ≠ dflt) :
    ∃ v, d.get? k = some v := by
  rw [getD] at h
  cases hget : d.get? k with
  | none => rw [hget] at h; exact absurd rfl h
  | some v => exact ⟨v, rfl⟩

/-- Filtering the entries for a key finds its value. -/
theorem filterMap_entries_eq {β : Type*} (d : PyDict κ ν) (k : κ) (g : ν → Option β) :
    (d.entries.filterMap fun p => if p.1 = k then g p.2 else none) = ((d.get? k).bind g).toList := by
  have hnodup := d.nodup
  change _ = ((d.entries.lookup k).bind g).toList
  generalize d.entries = entries at hnodup
  induction entries with
  | nil => rfl
  | cons p entries ih =>
    obtain ⟨k', v⟩ := p
    rw [List.map_cons, List.nodup_cons] at hnodup
    have ih := ih hnodup.2
    rw [List.filterMap_cons]
    by_cases hk : k' = k
    · subst hk
      have hrest : (entries.filterMap fun p => if p.1 = k' then g p.2 else none) = [] := by
        rw [List.filterMap_eq_nil_iff]
        intro p hp
        have hne : p.1 ≠ k' := fun h => hnodup.1 (List.mem_map.mpr ⟨p, hp, h⟩)
        rw [if_neg hne]
      rw [if_pos rfl, List.lookup_cons_self, hrest, Option.bind_some]
      cases g v <;> rfl
    · have hbeq : (k == k') = false := by simpa using Ne.symm hk
      rw [if_neg hk, List.lookup_cons, hbeq]
      exact ih

/-- A write to a present key changes one entry in its place. -/
theorem exists_entries_set {d : PyDict κ ν} {k : κ} {v : ν} (h : d.get? k = some v) (w : ν) :
    ∃ es es', d.entries = es ++ (k, v) :: es' ∧ (d.set k w).entries = es ++ (k, w) :: es' := by
  change d.entries.lookup k = some v at h
  change ∃ es es', _ ∧ setEntries d.entries k w = _
  generalize d.entries = entries at h
  induction entries with
  | nil => cases h
  | cons p entries ih =>
    obtain ⟨k', v'⟩ := p
    rw [setEntries]
    by_cases hk : k' = k
    · subst hk
      rw [List.lookup_cons_self] at h
      cases h
      exact ⟨[], entries, rfl, if_pos rfl⟩
    · have hbeq : (k == k') = false := by simpa using Ne.symm hk
      rw [List.lookup_cons, hbeq] at h
      obtain ⟨es, es', hentries, hset⟩ := ih h
      exact ⟨(k', v') :: es, es', by rw [hentries]; rfl, by rw [if_neg hk, hset]; rfl⟩

/-- Appending a fresh key leaves the earlier entries as they were. -/
theorem entries_set_of_notMem {d : PyDict κ ν} {k : κ} (v : ν) (h : k ∉ d.keys) :
    (d.set k v).entries = d.entries ++ [(k, v)] := by
  obtain ⟨es, hes⟩ := d
  simp only [set, keys] at h ⊢
  clear hes
  induction es with
  | nil => rfl
  | cons e es ih =>
    obtain ⟨k', v'⟩ := e
    simp only [List.map_cons, List.mem_cons, not_or] at h
    rw [setEntries, if_neg (fun he => h.1 he.symm), ih h.2, List.cons_append]

end Access

section Nested

variable [DecidableEq κ] [DecidableEq κ'] [AddMonoid ν]

/-- The value `d[k][k']` of a two-level `defaultdict`, `0` where nothing was written. -/
def at2 (d : PyDict κ (PyDict κ' ν)) (k : κ) (k' : κ') : ν := (d.getD k ∅).getD k' 0

/-- `d[k][k'] += v` on a two-level `defaultdict`. -/
def addAt (d : PyDict κ (PyDict κ' ν)) (k : κ) (k' : κ') (v : ν) : PyDict κ (PyDict κ' ν) :=
  d.modify k ∅ fun row => row.modify k' 0 (· + v)

@[simp] theorem at2_empty (k : κ) (k' : κ') : at2 (∅ : PyDict κ (PyDict κ' ν)) k k' = 0 := rfl

/-- One accumulation adds `v` at its own pair of keys and nothing anywhere else. -/
theorem at2_addAt (d : PyDict κ (PyDict κ' ν)) (k j : κ) (k' j' : κ') (v : ν) :
    at2 (addAt d k k' v) j j' = at2 d j j' + if j = k ∧ j' = k' then v else 0 := by
  rw [at2, addAt, getD_modify]
  by_cases hk : j = k
  · subst hk
    rw [if_pos rfl, getD_modify]
    by_cases hk' : j' = k'
    · subst hk'
      simp [at2]
    · simp [at2, hk']
  · simp [at2, hk]

/-- Every row has an entry, and no entry is zero: what accumulations of nonzero values leave. -/
def Live (d : PyDict κ (PyDict κ' ν)) : Prop :=
  ∀ k row, d.get? k = some row → row.keys ≠ [] ∧ ∀ k' ∈ row.keys, row.getD k' 0 ≠ 0

theorem live_empty : Live (∅ : PyDict κ (PyDict κ' ν)) := fun _ _ h => by cases h

/-- The keys of a row are those of its nonzero values. -/
theorem Live.mem_keys_row {d : PyDict κ (PyDict κ' ν)} (h : d.Live) {k : κ} {k' : κ'} :
    k' ∈ (d.getD k ∅).keys ↔ d.at2 k k' ≠ 0 := by
  rw [at2, getD]
  cases hrow : d.get? k with
  | none => exact ⟨fun hk => absurd hk List.not_mem_nil, fun hne => absurd rfl hne⟩
  | some row =>
    rw [Option.getD_some]
    refine ⟨(h k row hrow).2 k', fun hne => ?_⟩
    obtain ⟨v, hv⟩ := exists_get?_of_getD_ne hne
    exact get?_isSome_iff.mp (by rw [hv]; rfl)

/-- The keys are those of the rows with a nonzero value. -/
theorem Live.mem_keys {d : PyDict κ (PyDict κ' ν)} (h : d.Live) {k : κ} :
    k ∈ d.keys ↔ ∃ k', d.at2 k k' ≠ 0 := by
  constructor
  · intro hk
    obtain ⟨row, hrow⟩ := Option.isSome_iff_exists.mp (get?_isSome_iff.mpr hk)
    obtain ⟨k', hk'⟩ := List.exists_mem_of_ne_nil _ (h k row hrow).1
    refine ⟨k', h.mem_keys_row.mp ?_⟩
    rwa [getD, hrow, Option.getD_some]
  · rintro ⟨k', hk'⟩
    have hmem := h.mem_keys_row.mpr hk'
    refine get?_isSome_iff.mp ?_
    cases hrow : d.get? k with
    | none =>
      rw [getD, hrow] at hmem
      cases hmem
    | some row => rfl

/-- An accumulation that cannot give zero. -/
theorem Live.addAt {d : PyDict κ (PyDict κ' ν)} (h : d.Live) (k : κ) (k' : κ') {v : ν}
    (hv : ∀ x, x + v ≠ 0) : (d.addAt k k' v).Live := by
  intro j row hrow
  rw [PyDict.addAt, modify, get?_set] at hrow
  split at hrow
  · rename_i hjk
    subst hjk
    cases hrow
    refine ⟨?_, fun j' hj' => ?_⟩
    · exact fun hnil => entries_set_ne_nil _ _ _ (List.map_eq_nil_iff.mp hnil)
    · rw [modify, getD_set]
      split
      · exact hv _
      · rename_i hne
        rw [modify, mem_keys_set] at hj'
        exact h.mem_keys_row.mp (hj'.resolve_right hne)
  · exact h j row hrow

end Nested

end PyDict

end Py
