import MoeSpecialization.Common.Json
import Mathlib.Algebra.BigOperators.Fin
import Mathlib.Algebra.BigOperators.Group.List.Lemmas
import Mathlib.Data.List.DropRight
import Mathlib.Data.List.Rotate

/-!
# The buffers of the statistics accumulator

Reference: `_StatAccumulator`, `_CircularBuffer`, `_InfiniteBuffer` and
`_convert_global_physical_count_to_logical_count` in `sglang/srt/eplb/expert_distribution.py`.

In the modes `stat` and `stat_approx` the accumulator keeps the physical counts of the passes in a buffer
and converts them when they are dumped. The circular buffer goes on writing where it is when it is reset,
so its slots, read from the write index on, are the last passes behind zeros (`CircularBuffer.Holds`); the
infinite one doubles its capacity when it is full. Neither loses or repeats a count that is in its window
(`buffered_counts_conserved`).
-/

namespace MoeSpecialization.Recorder

open Py

/-! ## The buffers -/

section Buffers

variable {α : Type} [Zero α]

/-- `_CircularBuffer`. -/
structure CircularBuffer (α : Type) where
  buffer : List α
  currIndex : ℕ
deriving DecidableEq

/-- `_InfiniteBuffer`. -/
structure InfiniteBuffer (α : Type) where
  buffer : List α
  size : ℕ
deriving DecidableEq

/-- `buffer[i] = value`. -/
def setSlot (buffer : List α) (i : ℕ) (value : α) : Except Error (List α) :=
  if i < buffer.length then .ok (buffer.set i value) else .error .indexError

namespace CircularBuffer

/-- `__init__`. -/
def init (bufferSize : ℕ) : CircularBuffer α := ⟨List.replicate bufferSize 0, 0⟩

/-- `append`. -/
def append (b : CircularBuffer α) (value : α) : Except Error (CircularBuffer α) := do
  let buffer ← setSlot b.buffer b.currIndex value
  .ok ⟨buffer, (b.currIndex + 1) % buffer.length⟩

/-- `get_all`. -/
def getAll (b : CircularBuffer α) : List α := b.buffer

/-- `reset`. The write index stays where it is. -/
def reset (b : CircularBuffer α) : CircularBuffer α :=
  { b with buffer := List.replicate b.buffer.length 0 }

end CircularBuffer

namespace InfiniteBuffer

/-- `__init__`. -/
def init : InfiniteBuffer α := ⟨List.replicate 128 0, 0⟩

/-- `append`. A full buffer is copied to one of twice its size. -/
def append (b : InfiniteBuffer α) (value : α) : Except Error (InfiniteBuffer α) := do
  let buffer :=
    if b.size = b.buffer.length then b.buffer ++ List.replicate b.buffer.length 0 else b.buffer
  let buffer ← setSlot buffer b.size value
  .ok ⟨buffer, b.size + 1⟩

/-- `get_all`. -/
def getAll (b : InfiniteBuffer α) : List α := b.buffer.take b.size

/-- `reset`. -/
def reset (b : InfiniteBuffer α) : InfiniteBuffer α := ⟨List.replicate b.buffer.length 0, 0⟩

end InfiniteBuffer

/-- `_Buffer`. -/
inductive Buffer (α : Type) where
  | circular (b : CircularBuffer α)
  | infinite (b : InfiniteBuffer α)
deriving DecidableEq

namespace Buffer

/-- `init_new`. -/
def initNew (bufferSize : ℤ) : Buffer α :=
  if bufferSize < 0 then .infinite .init else .circular (.init bufferSize.toNat)

/-- `append`. -/
def append (value : α) : Buffer α → Except Error (Buffer α)
  | .circular b => (b.append value).map .circular
  | .infinite b => (b.append value).map .infinite

/-- `get_all`. -/
def getAll : Buffer α → List α
  | .circular b => b.getAll
  | .infinite b => b.getAll

/-- `reset`. -/
def reset : Buffer α → Buffer α
  | .circular b => .circular b.reset
  | .infinite b => .infinite b.reset

end Buffer

end Buffers

/-! ## The window of the circular buffer -/

section Window

variable {α : Type}

/-- Writing the oldest slot moves the window by one. -/
theorem rotate_set_succ {l : List α} {i : ℕ} (hi : i < l.length) (v : α) :
    (l.set i v).rotate ((i + 1) % l.length) = (l.rotate i).tail ++ [v] := by
  have hlen : (l.set i v).length = l.length := List.length_set
  have hset : l.set i v = l.take i ++ v :: l.drop (i + 1) := by
    rw [List.set_eq_take_append_cons_drop, if_pos hi]
  have htake : (l.take i ++ [v]).length = i + 1 := by simp [hi.le]
  have hrotate : (l.set i v).rotate ((i + 1) % l.length) = l.drop (i + 1) ++ (l.take i ++ [v]) := by
    rw [← hlen, List.rotate_mod, hset, ← List.singleton_append, ← List.append_assoc, ← htake,
      List.rotate_append_length_eq]
  rw [hrotate, List.rotate_eq_drop_append_take hi.le, List.drop_eq_getElem_cons hi, List.cons_append,
    List.tail_cons, List.append_assoc]

theorem rtake_concat {l : List α} {n : ℕ} (hn : 1 ≤ n) (hl : n ≤ l.length) (v : α) :
    (l ++ [v]).rtake n = (l.rtake n).tail ++ [v] := by
  have hdrop : l.length + 1 - n = l.length - n + 1 := by omega
  rw [List.rtake.eq_def, List.rtake.eq_def, List.tail_drop, List.length_append, List.length_singleton,
    List.drop_append_of_le_length (by omega), hdrop]

/-- Zeros in front of a list do not count. -/
theorem sum_rtake_zeros [Zero α] {f : α → ℤ} (hf : f 0 = 0) (n : ℕ) (l : List α) :
    (((List.replicate n 0 ++ l).rtake n).map f).sum = ((l.rtake n).map f).sum := by
  have hlen : (List.replicate n (0 : α) ++ l).length - n = l.length := by
    rw [List.length_append, List.length_replicate, Nat.add_sub_cancel_left]
  rw [List.rtake.eq_def, List.rtake.eq_def, hlen, List.drop_append, List.map_append, List.sum_append,
    List.drop_replicate, List.length_replicate, List.map_replicate, hf, List.sum_replicate, nsmul_zero,
    zero_add]

end Window

section Holds

variable {α : Type} [Zero α]

/-- The slots, from the oldest one on: zeros, then the passes since the last reset, as many as there is
room for. -/
structure CircularBuffer.Holds (bufferSize : ℕ) (passes : List α) (b : CircularBuffer α) : Prop where
  length : b.buffer.length = bufferSize
  index_lt : b.currIndex < bufferSize
  slots : b.buffer.rotate b.currIndex = (List.replicate bufferSize 0 ++ passes).rtake bufferSize

/-- The slots in use are the passes since the last reset. -/
structure InfiniteBuffer.Holds (passes : List α) (b : InfiniteBuffer α) : Prop where
  capacity : 0 < b.buffer.length
  size_le : b.size ≤ b.buffer.length
  slots : b.buffer.take b.size = passes

omit [Zero α] in
theorem setSlot_of_lt {buffer : List α} {i : ℕ} (h : i < buffer.length) (value : α) :
    setSlot buffer i value = .ok (buffer.set i value) := if_pos h

namespace CircularBuffer

variable {bufferSize : ℕ} {passes : List α} {b : CircularBuffer α}

theorem holds_init (h : 0 < bufferSize) : (init bufferSize : CircularBuffer α).Holds bufferSize [] where
  length := List.length_replicate
  index_lt := h
  slots := by
    rw [List.append_nil, List.rtake.eq_def, List.length_replicate, Nat.sub_self]
    exact List.rotate_zero _

theorem Holds.reset (h : b.Holds bufferSize passes) : b.reset.Holds bufferSize [] where
  length := List.length_replicate.trans h.length
  index_lt := h.index_lt
  slots := by
    rw [CircularBuffer.reset, List.rotate_replicate, h.length, List.append_nil, List.rtake.eq_def,
      List.length_replicate, Nat.sub_self]
    rfl

theorem Holds.append (h : b.Holds bufferSize passes) (value : α) :
    ∃ b', b.append value = .ok b' ∧ b'.Holds bufferSize (passes ++ [value]) := by
  have hlt : b.currIndex < b.buffer.length := h.length ▸ h.index_lt
  refine ⟨⟨b.buffer.set b.currIndex value, (b.currIndex + 1) % b.buffer.length⟩, ?_, ?_, ?_, ?_⟩
  · rw [CircularBuffer.append, setSlot_of_lt hlt]
    simp only [bind, Except.bind, List.length_set]
  · exact List.length_set.trans h.length
  · rw [h.length]
    exact Nat.mod_lt _ (Nat.zero_lt_of_lt h.index_lt)
  · rw [rotate_set_succ hlt, h.slots, ← List.append_assoc, rtake_concat (Nat.zero_lt_of_lt h.index_lt)]
    simp

/-- All slots together are the passes in the window. -/
theorem Holds.sum_getAll (h : b.Holds bufferSize passes) {f : α → ℤ} (hf : f 0 = 0) :
    (b.getAll.map f).sum = ((passes.rtake bufferSize).map f).sum := by
  have hperm := (List.rotate_perm b.buffer b.currIndex).map f
  rw [CircularBuffer.getAll, ← hperm.sum_eq, h.slots, sum_rtake_zeros hf]

end CircularBuffer

namespace InfiniteBuffer

variable {passes : List α} {b : InfiniteBuffer α}

theorem holds_init : (init : InfiniteBuffer α).Holds [] where
  capacity := by
    rw [init, List.length_replicate]
    decide
  size_le := Nat.zero_le _
  slots := rfl

theorem Holds.reset (h : b.Holds passes) : b.reset.Holds [] where
  capacity := by
    rw [InfiniteBuffer.reset, List.length_replicate]
    exact h.capacity
  size_le := Nat.zero_le _
  slots := rfl

theorem Holds.append (h : b.Holds passes) (value : α) :
    ∃ b', b.append value = .ok b' ∧ b'.Holds (passes ++ [value]) := by
  -- after the doubling, if there is one, the slots in use are the same and one more is free
  obtain ⟨buffer, hbuffer, hfree, htake⟩ : ∃ buffer,
      (if b.size = b.buffer.length then b.buffer ++ List.replicate b.buffer.length 0 else b.buffer) =
        buffer ∧ b.size < buffer.length ∧ buffer.take b.size = passes := by
    refine ⟨_, rfl, ?_⟩
    split
    · rename_i hfull
      constructor
      · rw [List.length_append, List.length_replicate, hfull]
        exact Nat.lt_add_of_pos_right h.capacity
      · rw [List.take_append_of_le_length h.size_le, h.slots]
    · rename_i hroom
      exact ⟨lt_of_le_of_ne h.size_le hroom, h.slots⟩
  refine ⟨⟨buffer.set b.size value, b.size + 1⟩, ?_, ?_, ?_, ?_⟩
  · rw [InfiniteBuffer.append, hbuffer, setSlot_of_lt hfree]
    rfl
  · rw [List.length_set]
    exact Nat.zero_lt_of_lt hfree
  · rw [List.length_set]
    exact hfree
  · rw [List.set_eq_take_append_cons_drop, if_pos hfree, htake, ← htake, List.take_append]
    simp [hfree.le]

end InfiniteBuffer

namespace Buffer

/-- The buffer holds the passes since the last reset, as far as it has room for them. -/
def Holds (bufferSize : ℤ) (passes : List α) : Buffer α → Prop
  | .circular b => 0 ≤ bufferSize ∧ b.Holds bufferSize.toNat passes
  | .infinite b => bufferSize < 0 ∧ b.Holds passes

variable {bufferSize : ℤ} {passes : List α} {b : Buffer α}

theorem holds_initNew (h : bufferSize ≠ 0) : (initNew bufferSize : Buffer α).Holds bufferSize [] := by
  unfold initNew
  split
  · rename_i hneg
    exact ⟨hneg, InfiniteBuffer.holds_init⟩
  · rename_i hpos
    exact ⟨not_lt.mp hpos, CircularBuffer.holds_init (by omega)⟩

theorem Holds.reset (h : b.Holds bufferSize passes) : b.reset.Holds bufferSize [] := by
  cases b with
  | circular b => exact ⟨h.1, h.2.reset⟩
  | infinite b => exact ⟨h.1, h.2.reset⟩

theorem Holds.append (h : b.Holds bufferSize passes) (value : α) :
    ∃ b', b.append value = .ok b' ∧ b'.Holds bufferSize (passes ++ [value]) := by
  cases b with
  | circular b =>
    obtain ⟨b', hb', hholds⟩ := h.2.append value
    exact ⟨.circular b', by rw [Buffer.append, hb']; rfl, h.1, hholds⟩
  | infinite b =>
    obtain ⟨b', hb', hholds⟩ := h.2.append value
    exact ⟨.infinite b', by rw [Buffer.append, hb']; rfl, h.1, hholds⟩

/-- All slots together are the passes that the buffer has room for. -/
theorem Holds.sum_getAll (h : b.Holds bufferSize passes) {f : α → ℤ} (hf : f 0 = 0) :
    (b.getAll.map f).sum =
      ((if bufferSize < 0 then passes else passes.rtake bufferSize.toNat).map f).sum := by
  cases b with
  | circular b =>
    rw [if_neg (not_lt.mpr h.1)]
    exact h.2.sum_getAll hf
  | infinite b =>
    rw [if_pos h.1, ← h.2.slots]
    rfl

theorem Holds.getAll_of_neg (h : b.Holds bufferSize passes) (hneg : bufferSize < 0) :
    b.getAll = passes := by
  cases b with
  | circular b => exact absurd hneg (not_lt.mpr h.1)
  | infinite b => exact h.2.slots

end Buffer

end Holds

/-! ## The accumulator -/

/-- The shape of the counts and the size of the buffer. -/
structure StatConfig where
  numLayers : ℕ
  numPhysicalExperts : ℕ
  numLogicalExperts : ℕ
  bufferSize : ℤ

/-- `global_physical_count` of a pass. -/
abbrev PhysicalCount (cfg : StatConfig) := Fin cfg.numLayers → Fin cfg.numPhysicalExperts → ℤ

/-- The count of a pass by logical experts. -/
abbrev LogicalCount (cfg : StatConfig) := Fin cfg.numLayers → Fin cfg.numLogicalExperts → ℤ

/-- `physical_to_logical_map`. -/
abbrev ExpertMap (cfg : StatConfig) := Fin cfg.numLayers → Fin cfg.numPhysicalExperts → ℤ

/-- What the recorder does with the accumulator. -/
inductive StatOp (cfg : StatConfig) where
  | append (count : PhysicalCount cfg)
  | reset

section

variable {cfg : StatConfig}

/-- `_StatAccumulator.append` and `_StatAccumulator.reset`. -/
def StatOp.run (buffer : Buffer (PhysicalCount cfg)) : StatOp cfg → Except Error (Buffer (PhysicalCount cfg))
  | .append count => buffer.append count
  | .reset => .ok buffer.reset

/-- The buffer after some calls on a new accumulator. -/
def bufferAfter (ops : List (StatOp cfg)) : Except Error (Buffer (PhysicalCount cfg)) :=
  ops.foldlM StatOp.run (.initNew cfg.bufferSize)

/-- `scatter_add_` of the counts of one layer into zeros. -/
def scatterAdd {physical logical : ℕ} (index src : Fin physical → ℤ) : Fin logical → ℤ :=
  (List.finRange physical).foldl
    (fun (acc : Fin logical → ℤ) p e => if index p = (e : ℕ) then acc e + src p else acc e) 0

/-- `_convert_global_physical_count_to_logical_count`. An index outside of the logical experts raises,
unless there is nothing to add. -/
def convertGlobalPhysicalCountToLogicalCount (globalPhysicalCount : List (PhysicalCount cfg))
    (physicalToLogicalMap : ExpertMap cfg) : Except Error (List (LogicalCount cfg)) :=
  if globalPhysicalCount.isEmpty ∨
      ∀ l p, 0 ≤ physicalToLogicalMap l p ∧ physicalToLogicalMap l p < cfg.numLogicalExperts then
    .ok (globalPhysicalCount.map fun count l => scatterAdd (physicalToLogicalMap l) (count l))
  else .error (.runtimeError "index out of bounds")

/-- The logical count that `_StatAccumulator.dump` computes, before it is reduced over the ranks. -/
def logicalCountOfBufferedStep (buffer : Buffer (PhysicalCount cfg)) (map : ExpertMap cfg) :
    Except Error (List (LogicalCount cfg)) :=
  convertGlobalPhysicalCountToLogicalCount buffer.getAll map

/-- The passes since the last reset after one more call. -/
def StatOp.passesAfter (passes : List (PhysicalCount cfg)) : StatOp cfg → List (PhysicalCount cfg)
  | .append count => passes ++ [count]
  | .reset => []

/-- The passes that were appended since the last reset. -/
def appendedSinceReset (ops : List (StatOp cfg)) : List (PhysicalCount cfg) :=
  ops.foldl StatOp.passesAfter []

/-- The passes of these that the buffer has room for: all of them, or the last `bufferSize`. -/
def bufferedPasses (ops : List (StatOp cfg)) : List (PhysicalCount cfg) :=
  if cfg.bufferSize < 0 then appendedSinceReset ops
  else (appendedSinceReset ops).rtake cfg.bufferSize.toNat

/-! ## Whole runs -/

/-- The counts of all physical experts of a logical expert. -/
def logicalOf (map : ExpertMap cfg) (count : PhysicalCount cfg) : LogicalCount cfg :=
  fun l e => ∑ p with map l p = (e : ℕ), count l p

/-- The step lemma: a call returns, and the buffer holds the passes. -/
theorem run_holds {buffer : Buffer (PhysicalCount cfg)} {passes : List (PhysicalCount cfg)}
    (h : buffer.Holds cfg.bufferSize passes) (op : StatOp cfg) :
    ∃ buffer', op.run buffer = .ok buffer' ∧ buffer'.Holds cfg.bufferSize (op.passesAfter passes) := by
  cases op with
  | append count => exact h.append count
  | reset => exact ⟨_, rfl, h.reset⟩

/-- The run lemma. -/
theorem exists_bufferAfter (hsize : cfg.bufferSize ≠ 0) (ops : List (StatOp cfg)) :
    ∃ buffer, bufferAfter ops = .ok buffer ∧ buffer.Holds cfg.bufferSize (appendedSinceReset ops) := by
  suffices key : ∀ (ops : List (StatOp cfg)) (buffer : Buffer (PhysicalCount cfg))
      (passes : List (PhysicalCount cfg)), buffer.Holds cfg.bufferSize passes →
      ∃ buffer', ops.foldlM StatOp.run buffer = .ok buffer' ∧
        buffer'.Holds cfg.bufferSize (ops.foldl StatOp.passesAfter passes) from
    key ops _ [] (Buffer.holds_initNew hsize)
  intro ops
  induction ops with
  | nil => exact fun buffer passes h => ⟨buffer, rfl, h⟩
  | cons op ops ih =>
    intro buffer passes h
    obtain ⟨buffer', hrun, hholds⟩ := run_holds h op
    obtain ⟨buffer'', hrest, hholds'⟩ := ih buffer' _ hholds
    refine ⟨buffer'', ?_, hholds'⟩
    rw [List.foldlM_cons, hrun]
    exact hrest

theorem scatterAdd_eq_sum {physical logical : ℕ} (index src : Fin physical → ℤ) (e : Fin logical) :
    scatterAdd index src e = ∑ p with index p = (e : ℕ), src p := by
  have key : ∀ (ps : List (Fin physical)) (acc : Fin logical → ℤ),
      ps.foldl (fun (acc : Fin logical → ℤ) p e => if index p = (e : ℕ) then acc e + src p else acc e)
        acc e = acc e + (ps.map fun p => if index p = (e : ℕ) then src p else 0).sum := by
    intro ps
    induction ps with
    | nil => simp
    | cons p ps ih =>
      intro acc
      rw [List.foldl_cons, ih, List.map_cons, List.sum_cons]
      split
      · rw [add_assoc]
      · rw [zero_add]
  rw [scatterAdd, key, Finset.sum_filter, Fin.sum_univ_def]
  exact zero_add _

/-- **Conservation of the buffered counts.** For an infinite buffer, and for a circular one with at least
one slot: in every run of appends and resets the accumulator returns, and for every layer and every
logical expert the logical counts of all steps together are the counts of its physical experts, over the
last passes since the last reset that the buffer has room for. An infinite buffer has one step for every
pass, in order. -/
theorem buffered_counts_conserved (hsize : cfg.bufferSize ≠ 0) (ops : List (StatOp cfg))
    {map : ExpertMap cfg} (hmap : ∀ l p, 0 ≤ map l p ∧ map l p < cfg.numLogicalExperts) :
    ∃ buffer logicalCount, bufferAfter ops = .ok buffer ∧
      logicalCountOfBufferedStep buffer map = .ok logicalCount ∧
      (∀ l e, (logicalCount.map fun step => step l e).sum =
        ((bufferedPasses ops).map fun count => logicalOf map count l e).sum) ∧
      (cfg.bufferSize < 0 → buffer.getAll = appendedSinceReset ops ∧
        logicalCount = (appendedSinceReset ops).map (logicalOf map)) := by
  obtain ⟨buffer, hbuffer, hholds⟩ := exists_bufferAfter hsize ops
  have hlogical : logicalCountOfBufferedStep buffer map =
      .ok (buffer.getAll.map (logicalOf map)) := by
    rw [logicalCountOfBufferedStep, convertGlobalPhysicalCountToLogicalCount, if_pos (.inr hmap)]
    refine congrArg Except.ok (List.map_congr_left fun count _ => ?_)
    funext l e
    exact scatterAdd_eq_sum (map l) (count l) e
  refine ⟨buffer, _, hbuffer, hlogical, fun l e => ?_, fun hneg => ?_⟩
  · have hzero : logicalOf map 0 l e = 0 := Finset.sum_eq_zero fun p _ => rfl
    rw [List.map_map]
    exact hholds.sum_getAll (f := fun count => logicalOf map count l e) hzero
  · rw [hholds.getAll_of_neg hneg]
    exact ⟨rfl, rfl⟩

end

/-- Two physical copies of one logical expert, and a buffer of two slots. -/
def sampleStatConfig : StatConfig := ⟨1, 2, 1, 2⟩

/-- A reset between an odd number of passes, and three passes after it: the last two are kept. -/
theorem buffered_counts_conserved_sample :
    let pass : ℤ → StatOp sampleStatConfig := fun n => .append fun _ _ => n
    ∃ buffer logicalCount, bufferAfter [pass 7, .reset, pass 1, pass 2, pass 3] = .ok buffer ∧
      logicalCountOfBufferedStep buffer (fun _ _ => 0) = .ok logicalCount ∧
      ∀ l e, (logicalCount.map fun step => step l e).sum = 10 := by
  intro pass
  obtain ⟨buffer, logicalCount, hbuffer, hlogical, hsum, -⟩ :=
    @buffered_counts_conserved sampleStatConfig (by decide)
      [pass 7, .reset, pass 1, pass 2, pass 3] (fun _ _ => 0) (by decide)
  refine ⟨buffer, logicalCount, hbuffer, hlogical, fun l e => ?_⟩
  rw [hsum l e]
  revert l e
  decide

end MoeSpecialization.Recorder
