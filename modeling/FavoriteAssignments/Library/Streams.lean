import Mathlib.Logic.Function.Basic

/-! # Files and standard streams

A file system with the two standard streams, and the streams that a program opens on it. -/

namespace FavoriteAssignments.Streams

variable {α : Type*}

/-- The contents of the files that exist, and of the two standard streams. -/
structure World (α : Type*) where
  files : String → Option (List α)
  stdin : List α
  stdout : List α

/-- `stdin` or `stdout`, or a file that has been opened. -/
inductive Stream where
  | standard
  | file (path : String)
  deriving DecidableEq

/-! ## Operations -/

/-- Opening for reading, where the file exists. -/
def World.openRead (w : World α) (path : String) : Option Stream :=
  if (w.files path).isSome then some (.file path) else none

/-- Opening for writing creates or empties the file, whatever its name. -/
def World.openWrite (w : World α) (path : String) : World α :=
  { w with files := Function.update w.files path (some []) }

/-- All that is on a stream. -/
def World.read (w : World α) : Stream → Option (List α)
  | .standard => some w.stdin
  | .file path => w.files path

/-- Text behind what is already on a stream. -/
def World.write (w : World α) (text : List α) : Stream → World α
  | .standard => { w with stdout := w.stdout ++ text }
  | .file path =>
      { w with files := Function.update w.files path (some ((w.files path).getD [] ++ text)) }

/-! ## Laws -/

variable (w : World α) (path : String) (text : List α)

theorem openRead_eq_some {contents : List α} (h : w.files path = some contents) :
    w.openRead path = some (.file path) := by
  rw [World.openRead, h]
  rfl

@[simp] theorem openWrite_files_of_ne {other : String} (h : other ≠ path) :
    (w.openWrite path).files other = w.files other :=
  Function.update_of_ne h _ _

@[simp] theorem write_nil_standard : w.write [] .standard = w := by
  rw [World.write, List.append_nil]

@[simp] theorem write_write_standard (text' : List α) :
    (w.write text .standard).write text' .standard = w.write (text ++ text') .standard := by
  simp only [World.write, List.append_assoc]

@[simp] theorem write_standard_files : (w.write text .standard).files = w.files := rfl

@[simp] theorem write_file_files_of_ne {other : String} (h : other ≠ path) :
    (w.write text (.file path)).files other = w.files other :=
  Function.update_of_ne h _ _

/-- A file that is opened for writing holds what is then written. -/
@[simp] theorem write_openWrite_files :
    ((w.openWrite path).write text (.file path)).files path = some text := by
  simp [World.write, World.openWrite]

end FavoriteAssignments.Streams
