import MoeSpecialization.Common.PyDict
import Mathlib.Data.List.Induction
import Mathlib.Data.List.Sort

/-!
# Dictionaries written once per step and read in key order

A program stores a value per step under a key that it makes up (a file under a time stamp, say), and a
later program reads the values in the order of the keys. Each value holds a list of things; the reader
concatenates them. `sortedConcat f d` is what the reader gets.

It is the concatenation in the order of writing when no value with content is overwritten (`Kept`) and
the keys of the values with content increase (`InOrder`): `sortedConcat_writes`. The first condition is
also necessary, because nothing that was overwritten is counted (`kept_of_sortedConcat`), and so is the
second when no thing was written twice (`inOrder_of_sortedConcat`).
-/

namespace Py

namespace PyDict

variable {κ ν ρ : Type*} (f : ν → List ρ)

/-! ## Values with content -/

/-- The entries with content. -/
def withContent (kvs : List (κ × ν)) : List (κ × ν) := kvs.filter fun kv => !(f kv.2).isEmpty

theorem mem_withContent {kvs : List (κ × ν)} {kv : κ × ν} :
    kv ∈ withContent f kvs ↔ kv ∈ kvs ∧ f kv.2 ≠ [] := by
  simp [withContent]

theorem flatMap_withContent (kvs : List (κ × ν)) :
    (withContent f kvs).flatMap (fun kv => f kv.2) = kvs.flatMap fun kv => f kv.2 := by
  induction kvs with
  | nil => rfl
  | cons kv kvs ih =>
    rw [withContent, List.filter_cons]
    split
    · rw [List.flatMap_cons, List.flatMap_cons]
      exact congrArg _ ih
    · rename_i h
      have hnil : f kv.2 = [] := by simpa using h
      rw [List.flatMap_cons, hnil]
      exact ih

variable [LinearOrder κ]

/-! ## Writing and reading -/

/-- The dictionary after successive writes. -/
def writes (kvs : List (κ × ν)) : PyDict κ ν := kvs.foldl (fun d kv => d.set kv.1 kv.2) ∅

/-- The entries in the order of their keys. -/
def sortedEntries (d : PyDict κ ν) : List (κ × ν) := d.entries.insertionSort fun a b => a.1 ≤ b.1

/-- The things of all values, in the order of the keys. -/
def sortedConcat (d : PyDict κ ν) : List ρ := d.sortedEntries.flatMap fun kv => f kv.2

/-- No value with content is overwritten. -/
def Kept (kvs : List (κ × ν)) : Prop := kvs.Pairwise fun a b => f a.2 ≠ [] → a.1 ≠ b.1

/-- The keys of the values with content increase. -/
def InOrder (kvs : List (κ × ν)) : Prop :=
  kvs.Pairwise fun a b => f a.2 ≠ [] → f b.2 ≠ [] → a.1 < b.1

theorem writes_concat (kvs : List (κ × ν)) (kv : κ × ν) :
    writes (kvs ++ [kv]) = (writes kvs).set kv.1 kv.2 := by
  rw [writes, List.foldl_append]
  rfl

/-! ## What is in the dictionary -/

theorem mem_of_get?_writes {kvs : List (κ × ν)} {k : κ} {v : ν}
    (h : (writes kvs).get? k = some v) : (k, v) ∈ kvs := by
  induction kvs using List.reverseRecOn with
  | nil => cases h
  | append_singleton kvs kv ih =>
    rw [writes_concat, get?_set] at h
    split at h
    · rename_i hk
      cases h
      rw [hk]
      simp
    · exact List.mem_append_left _ (ih h)

/-- A value with content that is not overwritten is there in the end. -/
theorem get?_writes_of_kept {kvs : List (κ × ν)} (hkept : Kept f kvs) {k : κ} {v : ν}
    (hmem : (k, v) ∈ kvs) (hv : f v ≠ []) : (writes kvs).get? k = some v := by
  induction kvs using List.reverseRecOn with
  | nil => cases hmem
  | append_singleton kvs kv ih =>
    obtain ⟨hkvs, -, hlast⟩ := List.pairwise_append.mp hkept
    rw [writes_concat]
    rcases List.mem_append.mp hmem with hmem | hmem
    · rw [get?_set_ne _ _ (hlast (k, v) hmem kv (by simp) hv)]
      exact ih hkvs hmem
    · rw [List.mem_singleton] at hmem
      rw [← hmem, get?_set_self]

theorem mem_sortedEntries {d : PyDict κ ν} {k : κ} {v : ν} :
    (k, v) ∈ d.sortedEntries ↔ d.get? k = some v := by
  rw [sortedEntries, List.mem_insertionSort, get?_eq_some_iff]

/-- The entries in key order have increasing keys. -/
theorem pairwise_sortedEntries (d : PyDict κ ν) : d.sortedEntries.Pairwise fun a b => a.1 < b.1 := by
  have hle : d.sortedEntries.Pairwise fun a b => a.1 ≤ b.1 := by
    have : IsTrans (κ × ν) fun a b => a.1 ≤ b.1 := ⟨fun _ _ _ => le_trans⟩
    have : Std.Total fun a b : κ × ν => a.1 ≤ b.1 := ⟨fun a b => le_total a.1 b.1⟩
    exact List.pairwise_insertionSort _ _
  have hne : d.sortedEntries.Pairwise fun a b => a.1 ≠ b.1 := by
    have hperm := (List.perm_insertionSort (fun a b : κ × ν => a.1 ≤ b.1) d.entries).map Prod.fst
    exact List.pairwise_map.mp (hperm.nodup_iff.mpr d.nodup)
  exact (hle.and hne).imp fun h => lt_of_le_of_ne h.1 h.2

theorem pairwise_withContent_iff {kvs : List (κ × ν)} :
    (withContent f kvs).Pairwise (fun a b => a.1 < b.1) ↔ InOrder f kvs := by
  rw [withContent, InOrder, List.pairwise_filter]
  simp

/-! ## The reader gets what was written -/

theorem mem_withContent_iff_of_kept {kvs : List (κ × ν)} (hkept : Kept f kvs) (kv : κ × ν) :
    kv ∈ withContent f (writes kvs).sortedEntries ↔ kv ∈ withContent f kvs := by
  obtain ⟨k, v⟩ := kv
  rw [mem_withContent, mem_withContent, mem_sortedEntries]
  exact ⟨fun h => ⟨mem_of_get?_writes h.1, h.2⟩, fun h => ⟨get?_writes_of_kept f hkept h.1 h.2, h.2⟩⟩

theorem sortedConcat_writes {kvs : List (κ × ν)} (hkept : Kept f kvs) (horder : InOrder f kvs) :
    sortedConcat f (writes kvs) = kvs.flatMap fun kv => f kv.2 := by
  have hsorted : (withContent f (writes kvs).sortedEntries).Pairwise fun a b => a.1 < b.1 :=
    (pairwise_sortedEntries _).filter _
  have hwritten := (pairwise_withContent_iff f).mpr horder
  have hnodup : ∀ {l : List (κ × ν)}, (l.Pairwise fun a b => a.1 < b.1) → l.Nodup := by
    intro l h
    refine h.imp ?_
    rintro a b hlt rfl
    exact lt_irrefl _ hlt
  have hperm := (List.perm_ext_iff_of_nodup (hnodup hsorted) (hnodup hwritten)).mpr
    (mem_withContent_iff_of_kept f hkept)
  have heq := hperm.eq_of_pairwise (fun a b _ _ hab hba => absurd hab (lt_asymm hba)) hsorted hwritten
  rw [sortedConcat, ← flatMap_withContent, heq, flatMap_withContent]

/-! ## Nothing else is enough -/

/-- How many things the values hold. -/
def size (d : PyDict κ ν) : ℕ := (d.entries.flatMap fun kv => f kv.2).length

theorem length_sortedConcat (d : PyDict κ ν) : (sortedConcat f d).length = size f d :=
  ((List.perm_insertionSort _ d.entries).flatMap_right _).length_eq

/-- A write adds the content of its value and removes that of the value it replaces. -/
theorem size_set (d : PyDict κ ν) (k : κ) (v : ν) :
    size f (d.set k v) + ((d.get? k).elim 0 fun w => (f w).length) = size f d + (f v).length := by
  obtain ⟨es, hes⟩ := d
  simp only [size, set, get?]
  clear hes
  induction es with
  | nil => simp [setEntries]
  | cons e es ih =>
    obtain ⟨k', w⟩ := e
    by_cases h : k' = k
    · subst h
      simp only [setEntries, if_true, List.flatMap_cons, List.length_append, List.lookup_cons,
        beq_self_eq_true, Option.elim_some]
      omega
    · have hb : (k == k') = false := by simpa using fun h' => h h'.symm
      simp only [setEntries, if_neg h, List.flatMap_cons, List.length_append, List.lookup_cons, hb]
      omega

/-- Every thing that was written is counted only if nothing with content was overwritten. -/
theorem size_writes (kvs : List (κ × ν)) :
    size f (writes kvs) ≤ (kvs.flatMap fun kv => f kv.2).length ∧
      (size f (writes kvs) = (kvs.flatMap fun kv => f kv.2).length → Kept f kvs) := by
  induction kvs using List.reverseRecOn with
  | nil => exact ⟨le_rfl, fun _ => List.Pairwise.nil⟩
  | append_singleton kvs kv ih =>
    have hset := size_set f (writes kvs) kv.1 kv.2
    rw [writes_concat, List.flatMap_append, List.length_append, List.flatMap_singleton]
    refine ⟨by omega, fun heq => ?_⟩
    have hkept : Kept f kvs := ih.2 (by omega)
    refine List.pairwise_append.mpr ⟨hkept, List.pairwise_singleton _ _, ?_⟩
    rintro ⟨k, v⟩ hmem b hb hv rfl
    rw [List.mem_singleton] at hb
    subst hb
    have hget := get?_writes_of_kept f hkept hmem hv
    have hpos : 0 < (f v).length := List.length_pos_iff.mpr hv
    rw [hget, Option.elim_some] at hset
    omega

theorem kept_of_sortedConcat {kvs : List (κ × ν)}
    (h : sortedConcat f (writes kvs) = kvs.flatMap fun kv => f kv.2) : Kept f kvs := by
  apply (size_writes f kvs).2
  rw [← length_sortedConcat, h]

/-- Two ways to cut a list without repetitions into the same pieces are one. -/
theorem eq_of_flatMap_eq {α : Type*} {g : α → List ρ} {as bs : List α} (ha : ∀ a ∈ as, g a ≠ [])
    (hb : ∀ b ∈ bs, g b ≠ []) (hsub : ∀ a ∈ as, a ∈ bs) (hnodup : (bs.flatMap g).Nodup)
    (h : as.flatMap g = bs.flatMap g) : as = bs := by
  induction as generalizing bs with
  | nil =>
    cases bs with
    | nil => rfl
    | cons b bs => simp [hb b] at h
  | cons a as ih =>
    have hne := ha a (by simp)
    cases bs with
    | nil => simp [hne] at h
    | cons b bs =>
      have hdisj := List.disjoint_of_nodup_append (by rwa [List.flatMap_cons] at hnodup)
      obtain ⟨x, hx⟩ : ∃ x, x ∈ (g a).head? := by
        cases hg : g a with
        | nil => exact absurd hg hne
        | cons x _ => exact ⟨x, rfl⟩
      -- both pieces start with the first element of the whole list
      have hxb : x ∈ (g b).head? := by
        have hhead := congrArg List.head? h
        rw [List.flatMap_cons, List.flatMap_cons, List.head?_append_of_ne_nil _ hne,
          List.head?_append_of_ne_nil _ (hb b (by simp))] at hhead
        rwa [← hhead]
      have hab : a = b := by
        rcases List.mem_cons.mp (hsub a (by simp)) with hab | hab
        · exact hab
        · exact absurd (List.mem_flatMap.mpr ⟨a, hab, List.mem_of_mem_head? hx⟩)
            (hdisj (List.mem_of_mem_head? hxb))
      subst hab
      rw [List.flatMap_cons, List.flatMap_cons, List.append_cancel_left_eq] at h
      rw [List.flatMap_cons] at hnodup
      refine congrArg _ (ih (fun c hc => ha c (by simp [hc])) (fun c hc => hb c (by simp [hc]))
        (fun c hc => ?_) hnodup.of_append_right h)
      rcases List.mem_cons.mp (hsub c (by simp [hc])) with rfl | hc'
      · -- a piece of the rest cannot be the first piece again
        obtain ⟨y, hy⟩ := List.exists_mem_of_ne_nil _ hne
        have hy' : y ∈ bs.flatMap g := h ▸ List.mem_flatMap.mpr ⟨c, hc, hy⟩
        exact absurd hy' (hdisj hy)
      · exact hc'

theorem inOrder_of_sortedConcat {kvs : List (κ × ν)} (hnodup : (kvs.flatMap fun kv => f kv.2).Nodup)
    (h : sortedConcat f (writes kvs) = kvs.flatMap fun kv => f kv.2) : InOrder f kvs := by
  have hkept := kept_of_sortedConcat f h
  have heq : withContent f (writes kvs).sortedEntries = withContent f kvs := by
    refine eq_of_flatMap_eq (g := fun kv => f kv.2) (fun a ha => ((mem_withContent f).mp ha).2)
      (fun b hb => ((mem_withContent f).mp hb).2)
      (fun a ha => (mem_withContent_iff_of_kept f hkept a).mp ha) ?_ ?_
    · rwa [flatMap_withContent]
    · rw [flatMap_withContent, flatMap_withContent]
      exact h
  rw [← pairwise_withContent_iff, ← heq]
  exact (pairwise_sortedEntries _).filter _

end PyDict

end Py
