import MoeSpecialization.Postprocess.Lines

/-!
# Which logit is stored for which expert

Reference: the slot loop of `convert_record_to_output_format`, whose comments name two formats of a logit
row: one logit for each expert of the model, or one logit for each slot of the top-k row.

The loop does not know the format. It takes the entry at the expert id if there is one, and else the
entry at the slot, anew for every slot. So an expert past the end of a full row gets the logit of the
expert whose number is its slot, and in a row by slot the logits are taken from the slots that the ids
happen to name. `logits_paired_iff` says exactly when neither is seen.
-/

namespace MoeSpecialization.Postprocess

open Py

/-- The two formats of a logit row. -/
inductive LogitFormat where
  | byExpert
  | bySlot
deriving DecidableEq

/-- A slot that the conversion keeps: its position, its expert and its weight. -/
structure KeptSlot where
  index : ℕ
  expertId : ℤ
  weight : Option ℚ
deriving DecidableEq

/-- The kept slots of rows that start at slot `i`. -/
def keptSlotsFrom (i : ℕ) (slots : List (Option ℤ × Option ℚ)) : List KeptSlot :=
  (slots.zipIdx i).filterMap fun p => (p.1.1.filter isValidExpert).map fun e => ⟨p.2, e, p.1.2⟩

/-- The kept slots of layer `layerIdx`. -/
def Record.keptSlotsAt (record : Record) (layerIdx : ℕ) : List KeptSlot :=
  keptSlotsFrom 0 ((firstRow (record.topkIdsOfLayer.getD layerIdx [])).zip
    (firstRow (record.topkWeightsOfLayer.getD layerIdx [])))

/-- The logit row of layer `layerIdx`. -/
def Record.logitRow (record : Record) (layerIdx : ℕ) : List (Option ℚ) :=
  firstRow (record.routerLogitsOfLayer.getD layerIdx [])

/-- The router logit of the expert in a slot, if the row has one. -/
def LogitFormat.ownLogit (format : LogitFormat) (row : List (Option ℚ)) (s : KeptSlot) : Option ℚ :=
  match format with
  | .byExpert => row.getD s.expertId.toNat none
  | .bySlot => row.getD s.index none

/-- The layer `d` pairs the experts of the kept slots with their weights and logits: the `j`-th id and the
`j`-th weight come from one slot; logits of the same number are those of the experts next to them; and
no logit is stored but those of the kept experts that have one. -/
structure LayerData.Paired (format : LogitFormat) (row : List (Option ℚ)) (kept : List KeptSlot)
    (d : LayerData) : Prop where
  slots : d.expertIds = kept.map (·.expertId) ∧ d.weights = kept.map fun s => some (s.weight.getD 0)
  own : ∀ logits, d.logits = some logits → logits.length = d.expertIds.length →
    ∀ (j : ℕ) (s : KeptSlot), kept[j]? = some s → logits[j]? = format.ownLogit row s
  others : d.logits.getD [] = kept.filterMap (format.ownLogit row)

/-- No kept slot takes a logit that is not its own. By expert: a kept id past the end of the row does not
stand at a slot inside it. By slot: the logit at the index of a kept id is that of its slot. -/
def LogitFormat.Unmixed (format : LogitFormat) (row : List (Option ℚ)) (kept : List KeptSlot) : Prop :=
  match format with
  | .byExpert => ∀ s ∈ kept, (row.length : ℤ) ≤ s.expertId → row.length ≤ s.index
  | .bySlot => ∀ s ∈ kept, s.expertId < row.length → row.getD s.expertId.toNat none = row.getD s.index none

/-! ## What the slot loop stores -/

theorem keptSlotsFrom_cons (i : ℕ) (s : Option ℤ × Option ℚ) (slots : List (Option ℤ × Option ℚ)) :
    keptSlotsFrom i (s :: slots) =
      ((s.1.filter isValidExpert).map fun e => (⟨i, e, s.2⟩ : KeptSlot)).toList ++
        keptSlotsFrom (i + 1) slots := by
  rw [keptSlotsFrom, List.zipIdx_cons, List.filterMap_cons]
  cases (s.1.filter isValidExpert) <;> rfl

/-- The logit that the loop stores for a slot. -/
def storedLogit (row : List (Option ℚ)) (s : KeptSlot) : Option ℚ :=
  if s.expertId < row.length then row.getD s.expertId.toNat none else row.getD s.index none

theorem slotLogit_eq {row : List (Option ℚ)} {i : ℕ} {e : ℤ} {w : Option ℚ} {l : List ℚ}
    (h : slotLogit row i e = .ok l) : l = (storedLogit row ⟨i, e, w⟩).toList := by
  have hfloat : ∀ {x : Option ℚ}, (pyFloat x).map (fun x => [x]) = .ok l → l = x.toList := by
    intro x hx
    obtain ⟨q, hq, rfl⟩ := except_map_eq_ok.mp hx
    cases x with
    | none => cases hq
    | some q' => cases hq; rfl
  unfold slotLogit at h
  unfold storedLogit
  dsimp only
  split at h
  · rw [if_pos ‹_›]
    exact hfloat h
  · rw [if_neg ‹_›]
    split at h
    · exact hfloat h
    · rename_i hi
      cases h
      rw [List.getD_eq_getElem?_getD, List.getElem?_eq_none (by omega)]
      rfl

theorem filterSlots_stored {row : List (Option ℚ)} {i : ℕ} {slots : List (Option ℤ × Option ℚ)}
    {f : Filtered} (h : filterSlots row i slots = .ok f) :
    f.expertIds = (keptSlotsFrom i slots).map (·.expertId) ∧
      f.weights = (keptSlotsFrom i slots).map (·.weight.getD 0) ∧
      f.logits = (keptSlotsFrom i slots).filterMap (storedLogit row) := by
  induction slots generalizing i f with
  | nil =>
    cases h
    exact ⟨rfl, rfl, rfl⟩
  | cons s slots ih =>
    obtain ⟨id, w⟩ := s
    rw [keptSlotsFrom_cons]
    cases id with
    | none => exact ih h
    | some e =>
      by_cases hv : isValidExpert e = true
      · simp only [filterSlots, if_pos hv] at h
        obtain ⟨l, hl, h⟩ := except_bind_eq_ok.mp h
        obtain ⟨rest, hrest, h⟩ := except_bind_eq_ok.mp h
        cases h
        obtain ⟨hids, hweights, hlogits⟩ := ih hrest
        have hstored := slotLogit_eq (w := w) hl
        simp only [Option.filter, if_pos hv, Option.map_some, Option.toList_some,
          List.singleton_append, List.map_cons, hids, hweights, hlogits, List.filterMap_cons, hstored,
          true_and]
        cases storedLogit row ⟨i, e, w⟩ <;> rfl
      · simp only [filterSlots, if_neg hv] at h
        simpa [Option.filter, hv] using ih h

/-- A list under a key that is left out if the list is empty. -/
def nonemptyList (xs : List ℚ) : Option (List ℚ) := if xs = [] then none else some xs

theorem getD_nonemptyList (xs : List ℚ) : (nonemptyList xs).getD [] = xs := by
  unfold nonemptyList
  split
  · rename_i hnil
    rw [hnil]
    rfl
  · rfl

/-- The layer that the conversion writes, slot by slot. -/
theorem convertLayerAt_stored {record : Record} {layerIdx : ℕ} {d : LayerData}
    (h : record.convertLayerAt layerIdx = .ok d) :
    d.expertIds = (record.keptSlotsAt layerIdx).map (·.expertId) ∧
      d.weights = (record.keptSlotsAt layerIdx).map (fun s => some (s.weight.getD 0)) ∧
      d.logits = nonemptyList
        ((record.keptSlotsAt layerIdx).filterMap (storedLogit (record.logitRow layerIdx))) := by
  obtain ⟨f, hf, h⟩ := except_bind_eq_ok.mp h
  obtain ⟨next, -, h⟩ := except_bind_eq_ok.mp h
  cases h
  obtain ⟨hids, hweights, hlogits⟩ := filterSlots_stored hf
  refine ⟨hids, ?_, ?_⟩
  · rw [hweights, List.map_map]
    rfl
  · rw [Record.logitRow, Record.keptSlotsAt, ← hlogits]
    rfl

/-- The positions apart, the kept slots are those of `Record.kept`. -/
theorem map_keptSlotsFrom (i : ℕ) (slots : List (Option ℤ × Option ℚ)) :
    (keptSlotsFrom i slots).map (fun s => (s.expertId, s.weight)) = keptSlots slots := by
  induction slots generalizing i with
  | nil => rfl
  | cons s slots ih =>
    rw [keptSlotsFrom_cons, keptSlots_cons, List.map_append, ih]
    cases s.1.filter isValidExpert <;> rfl

/-- The data that a line has for a layer, or has not because no slot is kept. -/
theorem convertRecord_stored {record : Record} {line : OutputRecord}
    (h : convertRecordToOutputFormat record = .ok line) (l : ℕ) :
    ((line.layers.get? (toString l)).getD {}).expertIds = (record.keptSlotsAt l).map (·.expertId) ∧
      ((line.layers.get? (toString l)).getD {}).weights =
        (record.keptSlotsAt l).map (fun s => some (s.weight.getD 0)) ∧
      ((line.layers.get? (toString l)).getD {}).logits =
        nonemptyList ((record.keptSlotsAt l).filterMap (storedLogit (record.logitRow l))) := by
  have hids := (convertRecord_layer h l).1
  cases hget : line.layers.get? (toString l) with
  | some d => exact convertLayerAt_stored (convertLayerAt_of_get? h hget).1
  | none =>
    rw [hget] at hids
    have hkept : record.kept l = [] := List.map_eq_nil_iff.mp hids.symm
    rw [Record.kept, ← map_keptSlotsFrom 0] at hkept
    have hnil : record.keptSlotsAt l = [] := List.map_eq_nil_iff.mp hkept
    rw [hnil]
    exact ⟨rfl, rfl, rfl⟩

/-! ## Equal lists of results -/

section FilterMap

variable {α β : Type*} {xs : List α} {f g : α → Option β}

theorem length_filterMap_le (h : ∀ x ∈ xs, (g x).isSome → (f x).isSome) :
    (xs.filterMap g).length ≤ (xs.filterMap f).length := by
  induction xs with
  | nil => simp
  | cons x xs ih =>
    have hrest := ih fun y hy => h y (by simp [hy])
    have hx := h x (by simp)
    rw [List.filterMap_cons, List.filterMap_cons]
    cases hg : g x with
    | none => cases f x <;> simp <;> omega
    | some b =>
      obtain ⟨a, ha⟩ := Option.isSome_iff_exists.mp (hx (by simp [hg]))
      simp only [ha, List.length_cons]
      omega

/-- If `f` has a result wherever `g` has one, equal lists of results are equal results. -/
theorem filterMap_eq_iff (h : ∀ x ∈ xs, (g x).isSome → (f x).isSome) :
    xs.filterMap f = xs.filterMap g ↔ ∀ x ∈ xs, f x = g x := by
  refine ⟨fun heq => ?_, fun hall => List.filterMap_congr hall⟩
  induction xs with
  | nil => simp
  | cons x xs ih =>
    have hxs : ∀ x ∈ xs, (g x).isSome → (f x).isSome := fun x hx => h x (by simp [hx])
    have hx := h x (by simp)
    have hlen := length_filterMap_le hxs
    rw [List.filterMap_cons, List.filterMap_cons] at heq
    cases hf : f x with
    | none =>
      cases hg : g x with
      | none =>
        rw [hf, hg] at heq
        exact List.forall_mem_cons.mpr ⟨hf.trans hg.symm, ih hxs heq⟩
      | some b =>
        rw [hf, hg] at hx
        cases hx rfl
    | some a =>
      cases hg : g x with
      | none =>
        -- one result more on the left than there can be
        rw [hf, hg] at heq
        have hlength := congrArg List.length heq
        simp only [List.length_cons] at hlength
        omega
      | some b =>
        rw [hf, hg, List.cons.injEq] at heq
        exact List.forall_mem_cons.mpr ⟨by rw [hf, hg, heq.1], ih hxs heq.2⟩

/-- As many results as elements: the `j`-th result is that of the `j`-th element. -/
theorem getElem?_filterMap_of_length (h : (xs.filterMap f).length = xs.length) {j : ℕ} {x : α}
    (hx : xs[j]? = some x) : (xs.filterMap f)[j]? = f x := by
  induction xs generalizing j with
  | nil => cases hx
  | cons y ys ih =>
    have hle := List.length_filterMap_le f ys
    rw [List.filterMap_cons] at h ⊢
    cases hy : f y with
    | none =>
      rw [hy, List.length_cons] at h
      dsimp only at h
      omega
    | some b =>
      rw [hy] at h
      have hrest : (ys.filterMap f).length = ys.length := by simpa using h
      cases j with
      | zero =>
        cases hx
        rw [hy]
        rfl
      | succ j => exact ih hrest hx

end FilterMap

/-! ## When the logits are paired -/

theorem getD_isSome {row : List (Option ℚ)} (hrow : none ∉ row) {i : ℕ} :
    (row.getD i none).isSome ↔ i < row.length := by
  rw [List.getD_eq_getElem?_getD]
  constructor
  · intro h
    by_contra hi
    rw [List.getElem?_eq_none (by omega)] at h
    cases h
  · intro hi
    rw [List.getElem?_eq_getElem hi, Option.getD_some, Option.isSome_iff_ne_none]
    exact fun hnone => hrow (hnone ▸ List.getElem_mem hi)

/-- On a row without `null`, the loop stores the own logit of every kept slot exactly if the slots are
unmixed. -/
theorem filterMap_stored_eq_own_iff {format : LogitFormat} {row : List (Option ℚ)}
    {kept : List KeptSlot} (hrow : none ∉ row) (hkept : ∀ s ∈ kept, 0 ≤ s.expertId)
    (hslots : format = .bySlot → ∀ s ∈ kept, s.index < row.length) :
    kept.filterMap (storedLogit row) = kept.filterMap (format.ownLogit row) ↔
      format.Unmixed row kept := by
  rw [filterMap_eq_iff]
  · cases format with
    | byExpert =>
      refine forall₂_congr fun s hs => ?_
      have hpos := hkept s hs
      rw [storedLogit, LogitFormat.ownLogit]
      by_cases hlt : s.expertId < row.length
      · simp [hlt, not_le.mpr hlt]
      · -- the expert has no logit, so nothing may be stored for it
        have hnone : row.getD s.expertId.toNat none = none := by
          rw [List.getD_eq_getElem?_getD, List.getElem?_eq_none (by omega)]
          rfl
        rw [if_neg hlt, hnone, ← Option.not_isSome_iff_eq_none, getD_isSome hrow]
        simp [not_lt.mp hlt]
    | bySlot =>
      refine forall₂_congr fun s hs => ?_
      rw [storedLogit, LogitFormat.ownLogit]
      by_cases hlt : s.expertId < row.length
      · simp [hlt]
      · simp [hlt]
  · intro s hs hsome
    have hpos := hkept s hs
    rw [storedLogit]
    split
    · rw [getD_isSome hrow]
      omega
    · rename_i hge
      cases format with
      | byExpert =>
        rw [LogitFormat.ownLogit, getD_isSome hrow] at hsome
        omega
      | bySlot => exact hsome

theorem mem_keptSlotsFrom {i : ℕ} {slots : List (Option ℤ × Option ℚ)} {s : KeptSlot}
    (h : s ∈ keptSlotsFrom i slots) : 0 ≤ s.expertId ∧ s.index < i + slots.length := by
  obtain ⟨⟨p, k⟩, hp, hs⟩ := List.mem_filterMap.mp h
  obtain ⟨e, he, rfl⟩ := Option.map_eq_some_iff.mp hs
  have hlt := List.snd_lt_of_mem_zipIdx hp
  refine ⟨(isValidExpert_iff.mp (Option.filter_eq_some_iff.mp he).2).1, ?_⟩
  dsimp only at hlt ⊢
  omega

theorem Record.mem_keptSlotsAt {record : Record} {layerIdx : ℕ} {s : KeptSlot}
    (h : s ∈ record.keptSlotsAt layerIdx) : 0 ≤ s.expertId ∧
      s.index < (firstRow (record.topkIdsOfLayer.getD layerIdx [])).length := by
  obtain ⟨hpos, hlt⟩ := mem_keptSlotsFrom h
  rw [List.length_zip] at hlt
  exact ⟨hpos, by omega⟩

/-- **Logit pairing.** For every line of the output and every layer in it, and for either format of the
logit row, the layer pairs its experts with their own weights and logits if and only if no kept slot takes
a logit that is not its own. -/
theorem logits_paired_iff (format : LogitFormat) {record : Record} {line : OutputRecord}
    (hline : convertRecordToOutputFormat record = .ok line) {layerIdx : ℕ} {d : LayerData}
    (hlayer : line.layers.get? (toString layerIdx) = some d)
    (hformat : format = .bySlot → (record.logitRow layerIdx).length =
      (firstRow (record.topkIdsOfLayer.getD layerIdx [])).length) :
    d.Paired format (record.logitRow layerIdx) (record.keptSlotsAt layerIdx) ↔
      format.Unmixed (record.logitRow layerIdx) (record.keptSlotsAt layerIdx) := by
  obtain ⟨hd, hne⟩ := convertLayerAt_of_get? hline hlayer
  obtain ⟨hids, hweights, hstore⟩ := convertLayerAt_stored hd
  have hlogits := congrArg (·.getD []) hstore
  simp only [getD_nonemptyList] at hlogits
  -- the layer has a kept slot, so its row was read without meeting a `null`
  have hrow : none ∉ record.logitRow layerIdx := by
    refine (convertLayer_kept hd).1.resolve_left fun hnil => hne ?_
    rw [(convertLayer_kept hd).2.1, hnil]
    rfl
  have hstored : (record.keptSlotsAt layerIdx).filterMap (storedLogit (record.logitRow layerIdx)) =
      (record.keptSlotsAt layerIdx).filterMap (format.ownLogit (record.logitRow layerIdx)) ↔
        format.Unmixed (record.logitRow layerIdx) (record.keptSlotsAt layerIdx) := by
    refine filterMap_stored_eq_own_iff hrow (fun s hs => (Record.mem_keptSlotsAt hs).1) ?_
    intro hslot s hs
    rw [hformat hslot]
    exact (Record.mem_keptSlotsAt hs).2
  rw [← hlogits] at hstored
  rw [← hstored]
  refine ⟨fun h => h.others, fun h => ⟨⟨hids, hweights⟩, ?_, h⟩⟩
  intro logits hsome hlen j s hs
  rw [hsome, Option.getD_some] at h
  rw [hids, List.length_map, h] at hlen
  rw [h]
  exact getElem?_filterMap_of_length hlen hs

/-- A record of one layer with the given rows. -/
def pairingRecord (ids : List ℤ) (logits : List ℚ) : Record where
  topkIdsOfLayer := [[some (ids.map some)]]
  topkWeightsOfLayer := [[some (ids.map fun _ => some (1/2))]]
  routerLogitsOfLayer := [[some (logits.map some)]]

theorem logits_paired_iff_sample :
    ∃ line d, convertRecordToOutputFormat (pairingRecord [2, 0] [5, 1, 3]) = .ok line ∧
      line.layers.get? (toString 0) = some d ∧
      d.Paired .byExpert ((pairingRecord [2, 0] [5, 1, 3]).logitRow 0)
        ((pairingRecord [2, 0] [5, 1, 3]).keptSlotsAt 0) := by
  obtain ⟨line, hline⟩ := (exists_convertRecord_iff (pairingRecord [2, 0] [5, 1, 3])).mpr fun l => by
    cases l with
    | zero => exact .inr (by decide)
    | succ l => exact .inl (Record.kept_of_le (by simp [pairingRecord]))
  obtain ⟨d, hd⟩ : ∃ d, (pairingRecord [2, 0] [5, 1, 3]).convertLayerAt 0 = .ok d := ⟨_, rfl⟩
  have hget := convertRecord_get? hline hd (by
    rw [(Record.convertLayerAt_kept hd).1]
    decide)
  exact ⟨line, d, hline, hget, (logits_paired_iff .byExpert hline hget nofun).mpr (by
    unfold LogitFormat.Unmixed
    decide)⟩

/-- Two experts swapped against their slots, with a logit for each slot: the stored logits are swapped.
And a row of two logits by expert: the expert 2, which has none, gets the one of the expert 0. -/
theorem logits_not_paired :
    (∃ line d, convertRecordToOutputFormat (pairingRecord [1, 0] [10, 20]) = .ok line ∧
      line.layers.get? (toString 0) = some d ∧
      ¬d.Paired .bySlot ((pairingRecord [1, 0] [10, 20]).logitRow 0)
        ((pairingRecord [1, 0] [10, 20]).keptSlotsAt 0)) ∧
    ∃ line d, convertRecordToOutputFormat (pairingRecord [2] [10, 20]) = .ok line ∧
      line.layers.get? (toString 0) = some d ∧
      ¬d.Paired .byExpert ((pairingRecord [2] [10, 20]).logitRow 0)
        ((pairingRecord [2] [10, 20]).keptSlotsAt 0) := by
  constructor
  · refine ⟨_, _, rfl, rfl, fun h => ?_⟩
    exact absurd h.others (by decide)
  · refine ⟨_, _, rfl, rfl, fun h => ?_⟩
    exact absurd h.others (by decide)

end MoeSpecialization.Postprocess
