import MoeSpecialization.Common.PyInt
import MoeSpecialization.Postprocess.Convert
import Mathlib.Algebra.BigOperators.Group.List.Basic

/-!
# What the lines of the output hold

The conversion of a layer keeps the slots of its first row whose expert passes the filter, up to the
shorter of ids and weights. `keptSlots` says so without the loop; it returns exactly if the layer has no
kept slot or no `null` logit. A line then has, under the key of every layer with a kept slot, the kept
slots of that layer, in the order of the layers.
-/

namespace MoeSpecialization.Postprocess

open Py

/-! ## The slots that count -/

/-- The experts of a row that pass the filter. -/
def keptIds (ids : List (Option ℤ)) : List ℤ := ids.filterMap (Option.filter isValidExpert)

/-- The slots whose expert passes the filter. -/
def keptSlots (slots : List (Option ℤ × Option ℚ)) : List (ℤ × Option ℚ) :=
  slots.filterMap fun s => (s.1.filter isValidExpert).map fun e => (e, s.2)

/-- The sum of the weights of an expert, `null` being `0`. -/
def weightOf (expertId : ℤ) (slots : List (ℤ × Option ℚ)) : ℚ :=
  (slots.map fun s => if s.1 = expertId then s.2.getD 0 else 0).sum

@[simp] theorem keptIds_nil : keptIds [] = [] := rfl

@[simp] theorem keptSlots_nil : keptSlots [] = [] := rfl

@[simp] theorem weightOf_nil (expertId : ℤ) : weightOf expertId [] = 0 := rfl

theorem keptIds_append (ids ids' : List (Option ℤ)) :
    keptIds (ids ++ ids') = keptIds ids ++ keptIds ids' := List.filterMap_append

theorem keptIds_cons (id : Option ℤ) (ids : List (Option ℤ)) :
    keptIds (id :: ids) = (id.filter isValidExpert).toList ++ keptIds ids := by
  rw [keptIds, List.filterMap_cons]
  cases id.filter isValidExpert <;> rfl

theorem keptSlots_cons (s : Option ℤ × Option ℚ) (slots : List (Option ℤ × Option ℚ)) :
    keptSlots (s :: slots) =
      ((s.1.filter isValidExpert).map fun e => (e, s.2)).toList ++ keptSlots slots := by
  rw [keptSlots, List.filterMap_cons]
  cases (s.1.filter isValidExpert) <;> rfl

theorem weightOf_append (expertId : ℤ) (slots slots' : List (ℤ × Option ℚ)) :
    weightOf expertId (slots ++ slots') = weightOf expertId slots + weightOf expertId slots' := by
  rw [weightOf, List.map_append, List.sum_append]
  rfl

/-- The kept experts of zipped rows are those of the ids up to the length of the weights. -/
theorem map_fst_keptSlots_zip (ids : List (Option ℤ)) (weights : List (Option ℚ)) :
    (keptSlots (ids.zip weights)).map Prod.fst = keptIds (ids.take weights.length) := by
  induction ids generalizing weights with
  | nil => simp
  | cons id ids ih =>
    cases weights with
    | nil => simp
    | cons w weights =>
      rw [List.zip_cons_cons, keptSlots_cons, List.map_append, ih, List.length_cons,
        List.take_succ_cons, keptIds_cons]
      cases id.filter isValidExpert <;> rfl

theorem pyFloat_ne_none {x : Option ℚ} {q : ℚ} (h : pyFloat x = .ok q) : x ≠ none := by
  rintro rfl
  cases h

theorem exists_pyFloat {xs : List (Option ℚ)} (h : none ∉ xs) {i : ℕ} (hi : i < xs.length) :
    ∃ q, pyFloat (xs.getD i none) = .ok q := by
  rw [List.getD_eq_getElem?_getD, List.getElem?_eq_getElem hi]
  cases hx : xs[i] with
  | none => exact absurd (hx ▸ List.getElem_mem hi) h
  | some q => exact ⟨q, rfl⟩

theorem exists_slotLogit {logits : List (Option ℚ)} (h : none ∉ logits) (i : ℕ) {e : ℤ}
    (he : 0 ≤ e) : ∃ l, slotLogit logits i e = .ok l := by
  unfold slotLogit
  split
  · obtain ⟨q, hq⟩ := exists_pyFloat h (i := e.toNat) (by omega)
    exact ⟨[q], by rw [hq]; rfl⟩
  · split
    · rename_i hi
      obtain ⟨q, hq⟩ := exists_pyFloat h hi
      exact ⟨[q], by rw [hq]; rfl⟩
    · exact ⟨[], rfl⟩

/-- The slot loop keeps the slots of valid experts. -/
theorem filterSlots_kept {logits : List (Option ℚ)} {i : ℕ} {slots : List (Option ℤ × Option ℚ)}
    {f : Filtered} (h : filterSlots logits i slots = .ok f) :
    f.expertIds = (keptSlots slots).map Prod.fst ∧
      f.weights = (keptSlots slots).map (·.2.getD 0) ∧
      ∀ s ∈ keptSlots slots, s.1 < logits.length → logits.getD s.1.toNat none ≠ none := by
  induction slots generalizing i f with
  | nil => cases h; simp
  | cons s slots ih =>
    obtain ⟨id, w⟩ := s
    rw [keptSlots_cons]
    cases id with
    | none => exact ih h
    | some e =>
      by_cases hv : isValidExpert e = true
      · simp only [filterSlots, if_pos hv] at h
        obtain ⟨l, hl, h⟩ := except_bind_eq_ok.mp h
        obtain ⟨rest, hrest, h⟩ := except_bind_eq_ok.mp h
        cases h
        obtain ⟨hids, hweights, hlogits⟩ := ih hrest
        simp only [Option.filter, if_pos hv, Option.map_some, Option.toList_some,
          List.singleton_append, List.map_cons, hids, hweights, List.forall_mem_cons]
        refine ⟨trivial, trivial, fun hlt => ?_, hlogits⟩
        rw [slotLogit, if_pos hlt] at hl
        obtain ⟨q, hq, -⟩ := except_map_eq_ok.mp hl
        exact pyFloat_ne_none hq
      · simp only [filterSlots, if_neg hv] at h
        simpa [Option.filter, hv] using ih h

/-- The slot loop returns if it meets no `null` logit. -/
theorem exists_filterSlots {logits : List (Option ℚ)} {slots : List (Option ℤ × Option ℚ)}
    (h : keptSlots slots = [] ∨ none ∉ logits) (i : ℕ) :
    ∃ f, filterSlots logits i slots = .ok f := by
  induction slots generalizing i with
  | nil => exact ⟨_, rfl⟩
  | cons s slots ih =>
    obtain ⟨id, w⟩ := s
    rw [keptSlots_cons] at h
    have hrest : keptSlots slots = [] ∨ none ∉ logits :=
      h.imp_left fun h => (List.append_eq_nil_iff.mp h).2
    obtain ⟨rest, hrest⟩ := ih hrest (i + 1)
    cases id with
    | none => exact ⟨rest, hrest⟩
    | some e =>
      by_cases hv : isValidExpert e = true
      · have hnone : none ∉ logits := h.resolve_left (by simp [Option.filter, hv])
        obtain ⟨l, hl⟩ := exists_slotLogit hnone i (isValidExpert_iff.mp hv).1
        simp only [filterSlots, if_pos hv, hl, hrest]
        exact ⟨_, rfl⟩
      · simp only [filterSlots, if_neg hv]
        exact ⟨rest, hrest⟩

/-- A layer converts if it has no kept slot or no `null` logit; the line then has the kept slots. -/
theorem convertLayer_kept {ids : LayerRows ℤ} {weights logits : LayerRows ℚ} {d : LayerData}
    (h : convertLayer ids weights logits = .ok d) :
    (keptSlots ((firstRow ids).zip (firstRow weights)) = [] ∨ none ∉ firstRow logits) ∧
      d.expertIds = (keptSlots ((firstRow ids).zip (firstRow weights))).map Prod.fst ∧
      d.weights = (keptSlots ((firstRow ids).zip (firstRow weights))).map (some <| ·.2.getD 0) := by
  obtain ⟨f, hf, h⟩ := except_bind_eq_ok.mp h
  obtain ⟨next, hnext, h⟩ := except_bind_eq_ok.mp h
  cases h
  obtain ⟨hids, hweights, hlogits⟩ := filterSlots_kept hf
  refine ⟨?_, hids, by simp [hweights]⟩
  -- with a kept slot, every logit is converted: by the slot loop if selected, else for the maximum
  refine or_iff_not_imp_left.mpr fun hkept hnone => ?_
  obtain ⟨idx, hidx, hget⟩ := List.mem_iff_getElem.mp hnone
  have hnull : (firstRow logits).getD idx none = none := by
    rw [List.getD_eq_getElem?_getD, List.getElem?_eq_getElem hidx, hget]
    rfl
  have hsel : f.expertIds ≠ [] := by simpa [hids] using hkept
  rw [nextExpertLogit, if_neg (by simp [hsel, List.ne_nil_of_length_pos (Nat.zero_lt_of_lt hidx)])]
    at hnext
  obtain ⟨un, hun, -⟩ := except_map_eq_ok.mp hnext
  by_cases hmem : (idx : ℤ) ∈ f.expertIds
  · -- a selected expert: its logit was looked up by the slot loop
    rw [hids] at hmem
    obtain ⟨s, hs, hse⟩ := List.mem_map.mp hmem
    refine hlogits s hs ?_ ?_
    · rw [hse]
      exact_mod_cast hidx
    · rw [hse, Int.toNat_natCast]
      exact hnull
  · obtain ⟨q, hq⟩ := forall_of_mapM_eq_ok hun idx (by simp [hidx, hmem])
    exact pyFloat_ne_none hq hnull

theorem exists_convertLayer {ids : LayerRows ℤ} {weights logits : LayerRows ℚ}
    (h : keptSlots ((firstRow ids).zip (firstRow weights)) = [] ∨ none ∉ firstRow logits) :
    ∃ d, convertLayer ids weights logits = .ok d := by
  obtain ⟨f, hf⟩ := exists_filterSlots h 0
  obtain ⟨hids, -, -⟩ := filterSlots_kept hf
  have hnext : ∃ next, nextExpertLogit (firstRow logits) f.expertIds = .ok next := by
    unfold nextExpertLogit
    split
    · exact ⟨none, rfl⟩
    · rename_i hne
      have hnone : none ∉ firstRow logits := by
        refine h.resolve_left fun hkept => hne (Or.inr ?_)
        rw [hids, hkept]
        rfl
      obtain ⟨un, hun⟩ := exists_mapM_eq_ok ((List.range (firstRow logits).length).filter
        fun (idx : ℕ) => (idx : ℤ) ∉ f.expertIds) fun idx hidx =>
          exists_pyFloat hnone (List.mem_range.mp (List.mem_filter.mp hidx).1)
      exact ⟨un.max?, by rw [unselectedLogits, hun]; rfl⟩
  obtain ⟨next, hnext⟩ := hnext
  rw [convertLayer, hf]
  simp only [bind, Except.bind, hnext]
  exact ⟨_, rfl⟩

/-- The entry of a layer in the line of a record: none if no slot is kept. -/
def Record.layerEntry (record : Record) (layerIdx : ℕ) : Option (String × LayerData) :=
  match record.convertLayerAt layerIdx with
  | .ok d => if d.expertIds = [] then none else some (toString layerIdx, d)
  | .error _ => none

theorem Record.layerEntry_fst {record : Record} {layerIdx : ℕ} {p : String × LayerData}
    (h : record.layerEntry layerIdx = some p) : p.1 = toString layerIdx := by
  unfold Record.layerEntry at h
  split at h
  · split at h
    · cases h
    · cases h
      rfl
  · cases h

/-- The loop over the layers stores their entries in order. -/
theorem foldlM_addLayer {record : Record} {n : ℕ} {layers : PyDict String LayerData}
    (h : (List.range n).foldlM record.addLayer ∅ = .ok layers) :
    layers.entries = (List.range n).filterMap record.layerEntry ∧
      ∀ l < n, ∃ d, record.convertLayerAt l = .ok d := by
  induction n generalizing layers with
  | zero => cases h; simp
  | succ n ih =>
    rw [List.range_succ, List.foldlM_append] at h
    obtain ⟨before, hbefore, h⟩ := except_bind_eq_ok.mp h
    obtain ⟨hentries, hlayers⟩ := ih hbefore
    simp only [List.foldlM_cons, List.foldlM_nil, bind_pure] at h
    obtain ⟨d, hd, h⟩ := except_bind_eq_ok.mp h
    refine ⟨?_, ?_⟩
    -- the keys before are those of smaller numbers, so the new entry goes to the end
    · have hfresh : toString n ∉ before.keys := by
        rw [PyDict.keys, hentries, List.mem_map]
        rintro ⟨p, hp, hkey⟩
        obtain ⟨l, hl, hentry⟩ := List.mem_filterMap.mp hp
        rw [record.layerEntry_fst hentry, toString_inj] at hkey
        exact absurd (List.mem_range.mp hl) (by omega)
      rw [List.range_succ, List.filterMap_append, ← hentries, List.filterMap_cons,
        List.filterMap_nil, Record.layerEntry, hd]
      by_cases hempty : d.expertIds = []
      · rw [if_pos hempty] at h
        cases h
        simp [hempty]
      · rw [if_neg hempty] at h
        cases h
        simp only [hempty, if_false]
        exact PyDict.entries_set_of_notMem d hfresh
    · intro l hl
      rcases Nat.lt_succ_iff_lt_or_eq.mp hl with hlt | rfl
      · exact hlayers l hlt
      · exact ⟨d, hd⟩

theorem exists_foldlM_addLayer {record : Record} {n : ℕ}
    (h : ∀ l < n, ∃ d, record.convertLayerAt l = .ok d) :
    ∃ layers, (List.range n).foldlM record.addLayer ∅ = .ok layers := by
  induction n with
  | zero => exact ⟨∅, rfl⟩
  | succ n ih =>
    obtain ⟨before, hbefore⟩ := ih fun l hl => h l (by omega)
    obtain ⟨d, hd⟩ := h n (by omega)
    rw [List.range_succ, List.foldlM_append, hbefore]
    simp only [List.foldlM_cons, List.foldlM_nil, Record.addLayer, hd]
    by_cases hempty : d.expertIds = []
    · exact ⟨before, by simp [hempty, bind, Except.bind, pure, Except.pure]⟩
    · exact ⟨before.set (toString n) d, by simp [hempty, bind, Except.bind, pure, Except.pure]⟩

/-- The slots of layer `layerIdx` that the conversion keeps. -/
def Record.kept (record : Record) (layerIdx : ℕ) : List (ℤ × Option ℚ) :=
  keptSlots ((firstRow (record.topkIdsOfLayer.getD layerIdx [])).zip
    (firstRow (record.topkWeightsOfLayer.getD layerIdx [])))

/-- What the conversion needs of a record to return. -/
def Record.LogitsOk (record : Record) : Prop :=
  ∀ layerIdx, record.kept layerIdx = [] ∨
    none ∉ firstRow (record.routerLogitsOfLayer.getD layerIdx [])

theorem Record.convertLayerAt_kept {record : Record} {layerIdx : ℕ} {d : LayerData}
    (h : record.convertLayerAt layerIdx = .ok d) :
    d.expertIds = (record.kept layerIdx).map Prod.fst ∧
      d.weights = (record.kept layerIdx).map (some <| ·.2.getD 0) := (convertLayer_kept h).2

/-- A layer past the last one keeps nothing. -/
theorem Record.kept_of_le {record : Record} {layerIdx : ℕ}
    (h : record.topkIdsOfLayer.length ≤ layerIdx) : record.kept layerIdx = [] := by
  simp [Record.kept, List.getD_eq_getElem?_getD, List.getElem?_eq_none h, firstRow]

/-- A record is converted exactly if no layer with a kept slot has a `null` logit. -/
theorem exists_convertRecord_iff (record : Record) :
    (∃ line, convertRecordToOutputFormat record = .ok line) ↔ record.LogitsOk := by
  constructor
  · rintro ⟨line, hline⟩ l
    obtain ⟨layers, hlayers, -⟩ := except_bind_eq_ok.mp hline
    by_cases hl : l < record.topkIdsOfLayer.length
    · obtain ⟨d, hd⟩ := (foldlM_addLayer hlayers).2 l hl
      exact (convertLayer_kept hd).1
    · exact Or.inl (record.kept_of_le (by omega))
  · intro h
    obtain ⟨layers, hlayers⟩ := exists_foldlM_addLayer fun l (_ : l < record.topkIdsOfLayer.length) =>
      (exists_convertLayer (h l) : ∃ d, record.convertLayerAt l = .ok d)
    rw [convertRecordToOutputFormat, hlayers]
    exact ⟨_, rfl⟩

/-- The entries of a line, and the fields it copies. -/
theorem convertRecord_entries {record : Record} {line : OutputRecord}
    (h : convertRecordToOutputFormat record = .ok line) :
    line.layers.entries =
        (List.range record.topkIdsOfLayer.length).filterMap record.layerEntry ∧
      line.outputTokenId = record.outputTokenId ∧ line.requestId = record.requestId ∧
      line.tokenIndex = record.tokenIndex := by
  obtain ⟨layers, hlayers, h⟩ := except_bind_eq_ok.mp h
  cases h
  exact ⟨(foldlM_addLayer hlayers).1, rfl, rfl, rfl⟩

/-- An entry of a line: a layer number, and valid experts, at least one. -/
theorem convertRecord_mem_entries {record : Record} {line : OutputRecord} {p : String × LayerData}
    (h : convertRecordToOutputFormat record = .ok line) (hp : p ∈ line.layers.entries) :
    ∃ l : ℕ, p.1 = toString l ∧ p.2.expertIds ≠ [] ∧ ∀ e ∈ p.2.expertIds, isValidExpert e = true := by
  rw [(convertRecord_entries h).1, List.mem_filterMap] at hp
  obtain ⟨l, -, hentry⟩ := hp
  refine ⟨l, record.layerEntry_fst hentry, ?_⟩
  unfold Record.layerEntry at hentry
  split at hentry
  · rename_i d hd
    split at hentry
    · cases hentry
    · rename_i hne
      cases hentry
      refine ⟨hne, fun e he => ?_⟩
      rw [(record.convertLayerAt_kept hd).1, Record.kept, map_fst_keptSlots_zip, keptIds,
        List.mem_filterMap] at he
      obtain ⟨id, -, hid⟩ := he
      exact (Option.filter_eq_some_iff.mp hid).2
  · cases hentry

/-- A layer with a kept slot stands in the line under its key. -/
theorem convertRecord_get? {record : Record} {line : OutputRecord} {l : ℕ} {d : LayerData}
    (h : convertRecordToOutputFormat record = .ok line) (hd : record.convertLayerAt l = .ok d)
    (hne : d.expertIds ≠ []) : line.layers.get? (toString l) = some d := by
  rw [PyDict.get?_eq_some_iff, (convertRecord_entries h).1, List.mem_filterMap]
  have hlt : l < record.topkIdsOfLayer.length := by
    by_contra hge
    exact hne (by rw [(record.convertLayerAt_kept hd).1, record.kept_of_le (not_lt.mp hge)]; rfl)
  exact ⟨l, List.mem_range.mpr hlt, by rw [Record.layerEntry, hd]; simp [hne]⟩

/-- The data that a line has under the key of a layer is the conversion of that layer. -/
theorem convertLayerAt_of_get? {record : Record} {line : OutputRecord} {l : ℕ} {d : LayerData}
    (h : convertRecordToOutputFormat record = .ok line)
    (hget : line.layers.get? (toString l) = some d) :
    record.convertLayerAt l = .ok d ∧ d.expertIds ≠ [] := by
  rw [PyDict.get?_eq_some_iff, (convertRecord_entries h).1, List.mem_filterMap] at hget
  obtain ⟨l', -, hentry⟩ := hget
  have hkey := record.layerEntry_fst hentry
  rw [toString_inj] at hkey
  subst hkey
  unfold Record.layerEntry at hentry
  split at hentry
  · rename_i d' hd'
    split at hentry
    · cases hentry
    · rename_i hne
      cases hentry
      exact ⟨hd', hne⟩
  · cases hentry

/-- The data a line has for a layer, by its key: the kept slots, and nothing if there are none. -/
theorem convertRecord_layer {record : Record} {line : OutputRecord}
    (h : convertRecordToOutputFormat record = .ok line) (l : ℕ) :
    ((line.layers.get? (toString l)).getD {}).expertIds = (record.kept l).map Prod.fst ∧
      ((line.layers.get? (toString l)).getD {}).weights =
        (record.kept l).map (some <| ·.2.getD 0) := by
  obtain ⟨layers, hlayers, -⟩ := except_bind_eq_ok.mp h
  cases hget : line.layers.get? (toString l) with
  | none =>
    have hkept : record.kept l = [] := by
      by_cases hl : l < record.topkIdsOfLayer.length
      · obtain ⟨d, hd⟩ := (foldlM_addLayer hlayers).2 l hl
        by_contra hne
        have hids : d.expertIds ≠ [] := by simpa [(record.convertLayerAt_kept hd).1] using hne
        rw [convertRecord_get? h hd hids] at hget
        cases hget
      · exact record.kept_of_le (by omega)
    simp [hkept]
  | some d => exact record.convertLayerAt_kept (convertLayerAt_of_get? h hget).1

end MoeSpecialization.Postprocess
