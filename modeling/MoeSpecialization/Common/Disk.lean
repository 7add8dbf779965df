import Mathlib.Data.List.Infix
import Mathlib.Logic.Function.Basic

/-!
# Files by path

A path is the list of its components. A disk knows its directories and the contents of its files; making a
directory and writing a file do not fail. `Within` says that only the files directly inside one directory
have changed.
-/

namespace Py

/-- The components of a path. -/
abbrev Path := List String

/-- The directories and the files. -/
structure Disk (α : Type) where
  isDir : Path → Bool
  files : Path → Option α

namespace Disk

variable {α : Type}

/-- `mkdir -p path`. -/
def mkdirP (path : Path) (d : Disk α) : Disk α :=
  { d with isDir := fun p => d.isDir p || p.isPrefixOf path }

/-- The file is written as a whole. -/
def write (path : Path) (content : α) (d : Disk α) : Disk α :=
  { d with files := Function.update d.files path (some content) }

/-- Only files directly inside of `dir` differ, and no directory is gone. -/
structure Within (dir : Path) (d d' : Disk α) : Prop where
  files : ∀ p, p.dropLast ≠ dir → d'.files p = d.files p
  isDir : ∀ p, d.isDir p = true → d'.isDir p = true

theorem Within.refl (dir : Path) (d : Disk α) : Within dir d d := ⟨fun _ _ => rfl, fun _ h => h⟩

theorem Within.trans {dir : Path} {d₁ d₂ d₃ : Disk α} (h : Within dir d₁ d₂) (h' : Within dir d₂ d₃) :
    Within dir d₁ d₃ :=
  ⟨fun p hp => (h'.files p hp).trans (h.files p hp), fun p hp => h'.isDir p (h.isDir p hp)⟩

theorem within_mkdirP (dir path : Path) (d : Disk α) : Within dir d (d.mkdirP path) :=
  ⟨fun _ _ => rfl, fun _ hp => Bool.or_eq_true_iff.mpr (.inl hp)⟩

theorem within_write (dir : Path) (name : String) (content : α) (d : Disk α) :
    Within dir d (d.write (dir ++ [name]) content) := by
  refine ⟨fun p hp => Function.update_of_ne ?_ _ _, fun _ hp => hp⟩
  rintro rfl
  exact hp List.dropLast_concat

end Disk

end Py
