/-
**Several files as one text.**

The files of a compilation are put behind each other, each on a line of its own.  Places in the
combined text are traced back to the file that they come from.

Main definitions:

* `SourceFile`, `Sources` — a file in its place, and all files with the combined text;
* `Sources.add` — one more file;
* `Sources.locateOffset`, `Sources.locateLine` — the file of a place, and the place in it.
-/

import StackLang.Source.Span
import StackLang.Text.Lines

set_option relaxedAutoImplicit false
set_option autoImplicit false

namespace StackLang

/-- A file in the combined text. -/
structure SourceFile where
  name : String
  text : String
  /-- The offset of the file in the combined text. -/
  start : Nat
  /-- The line of the combined text, counted from zero, that the file starts. -/
  firstLine : Nat
deriving DecidableEq, Repr

/-- Some files and the text that they make together. -/
structure Sources where
  files : List SourceFile
  text : String
deriving DecidableEq, Repr

namespace Sources

/-- No files. -/
def empty : Sources := ⟨[], ""⟩

/-- The combined text, ended by a line feed unless it is empty. -/
def closedText (s : Sources) : String :=
  if s.text = "" ∨ s.text.toList.getLast? = some '\n' then s.text else s.text.push '\n'

/-- The files with one more behind them. -/
def add (s : Sources) (name text : String) : Sources :=
  let before := s.closedText
  ⟨s.files ++ [⟨name, text, before.utf8ByteSize, before.toList.count '\n'⟩], before ++ text⟩

@[simp] theorem text_add (s : Sources) (name text : String) :
    (s.add name text).text = s.closedText ++ text := rfl

@[simp] theorem length_files_add (s : Sources) (name text : String) :
    (s.add name text).files.length = s.files.length + 1 := by
  simp [add]

/-- The name that all files go by together: that of the first one. -/
def unitName (s : Sources) : String :=
  match s.files with
  | [] => "<empty>"
  | file :: _ => file.name

/-- The last file that `p` holds for, with its number. -/
def findLast? (s : Sources) (p : SourceFile → Bool) : Option (SourceFile × Nat) :=
  s.files.zipIdx.reverse.find? fun (file, _) => p file

/-- The number of the file that a place of the combined text belongs to, and the offset in that
file.  Whatever is behind a file counts as its end. -/
def locateOffset (s : Sources) (offset : Nat) : Option (Nat × Nat) :=
  match s.findLast? fun file => file.start ≤ offset with
  | some (file, k) => some (k, min (offset - file.start) file.text.utf8ByteSize)
  | none => none

end Sources

/-- The stretch of the line `n` among lines that are divided by one byte each, the first of which
starts at `start`. -/
def lineStretch? (start : Nat) (lines : List (List Char)) (n : Nat) : Option (Nat × Nat) :=
  match lines, n with
  | [], _ => none
  | line :: _, 0 => some (start, start + byteLength line)
  | line :: lines, n + 1 => lineStretch? (start + byteLength line + 1) lines n

namespace Sources

/-- The number of the file that a line of the combined text, counted from zero, belongs to, and the
stretch of the line in that file. -/
def locateLine (s : Sources) (line : Nat) : Option (Nat × Nat × Nat) :=
  match s.findLast? fun file => file.firstLine ≤ line with
  | some (file, k) =>
    (lineStretch? 0 (Text.pieces file.text.toList) (line - file.firstLine)).map (k, ·)
  | none => none

end Sources

end StackLang
