/-
**The programs.**

One executable that is the assembler when it goes by that program's name, and the compiler
otherwise.

Main definitions:

* `main` — a run with the files of the system.
-/

import StackLang.CommandLine.Run

set_option relaxedAutoImplicit false
set_option autoImplicit false

namespace StackLang

namespace CommandLine

/-- Why the system refused access to a file. -/
def FileError.ofSystem : IO.Error → FileError
  | .noFileOrDirectory .. => .notFound
  | .permissionDenied .. => .denied
  | .inappropriateType _ 20 _ => .notADirectory
  | .inappropriateType .. => .isADirectory
  | e => .other e.toString

/-- An action on a file, with its error as a value. -/
def guarded {α : Type} (action : IO α) : IO (Except FileError α) := do
  match ← action.toBaseIO with
  | .ok value => pure (.ok value)
  | .error e => pure (.error (FileError.ofSystem e))

/-- Access to the files of the system. -/
def systemAccess : FileAccess IO where
  read := fun path => guarded (IO.FS.readBinFile path)
  write := fun path bytes => guarded (IO.FS.writeBinFile path bytes)
  print := fun bytes => do
    let out ← IO.getStdout
    out.write bytes
    out.flush

end CommandLine

end StackLang

open StackLang CommandLine in
/-- Runs the program that the executable is named for. -/
def main (args : List String) : IO UInt32 := do
  let path ← IO.appPath
  let program := if path.fileStem = some Program.assembler.name then .assembler else .compiler
  let outcome ← run systemAccess program args
  for diagnostic in outcome.diagnostics do
    IO.eprintln ("error: " ++ diagnostic.message)
  match outcome.failure with
  | some message => IO.eprintln ("error: " ++ message)
  | none => pure ()
  pure outcome.code.toUInt32
