/-
**Runs of the programs.**

A run reads the files, makes one text of them, and writes what comes of it: the text for the
assembler or an image, and the map of the image on demand.

Main definitions:

* `Product`, `Refusal` — what comes of the files, or why nothing does;
* `compileSources`, `assembleSources` — the work of the two programs;
* `run` — a whole run.
-/

import StackLang.Assembly.Map
import StackLang.CommandLine.Directory
import StackLang.CommandLine.Options
import StackLang.Compile
import StackLang.Diagnostic

set_option relaxedAutoImplicit false
set_option autoImplicit false

namespace StackLang

namespace CommandLine

/-! ### The work of the programs -/

/-- What comes of the files. -/
structure Product where
  /-- The file that it goes to. -/
  path : String
  bytes : ByteArray
  /-- The map, if there is an image. -/
  map : Option String

/-- Why nothing comes of the files. -/
structure Refusal where
  diagnostics : List Diagnostic
  message : String

/-- The image of an assembly text.  The diagnostics are about the files `shown`, the message about
`unit`. -/
def assembleProduct (o : Options) (shown : Sources) (unit : String) : Except Refusal Product :=
  match Assembly.assemble shown.text o.origin with
  | .ok image =>
    .ok ⟨o.output.getD "a.hex", ⟨image.bytes.toArray⟩, some image.map⟩
  | .error e => .error ⟨[Diagnostic.ofAssemblyError shown e], "could not assemble " ++ unit⟩

/-- What the assembler makes of the files. -/
def assembleSources (o : Options) (sources : Sources) : Except Refusal Product :=
  assembleProduct o sources sources.unitName

/-- What the compiler makes of the files. -/
def compileSources (o : Options) (sources : Sources) : Except Refusal Product :=
  match compile o.optimize sources.text with
  | .error e =>
    .error ⟨Diagnostic.ofCompileError sources e, "could not compile " ++ sources.unitName⟩
  | .ok c =>
    if o.asm then .ok ⟨o.output.getD "out.asm", c.assembly.toUTF8, none⟩
    else assembleProduct o (Sources.empty.add "<generated assembly>" c.assembly) sources.unitName

/-- What a program makes of the files. -/
def produce : Program → Options → Sources → Except Refusal Product
  | .compiler => compileSources
  | .assembler => assembleSources

/-! ### Runs -/

/-- How a run ends. -/
structure Outcome where
  /-- The number that the program ends with. -/
  code : Nat
  diagnostics : List Diagnostic
  /-- Why the run failed. -/
  failure : Option String
deriving DecidableEq, Repr

namespace Outcome

/-- The end of a run that did what it was asked for. -/
def success : Outcome := ⟨0, [], none⟩

/-- The end of a run that failed. -/
def failed (message : String) : Outcome := ⟨1, [], some message⟩

end Outcome

/-- The version of the programs. -/
def version : String := "0.2.0"

variable {m : Type → Type} [Monad m]

/-- The text of a file. -/
def readText (access : FileAccess m) (path : String) : m (Except FileError String) := do
  match ← access.read path with
  | .error e => pure (.error e)
  | .ok bytes =>
    match String.fromUTF8? bytes with
    | some text => pure (.ok text)
    | none => pure (.error .notText)

/-- The files of some paths behind those in `sources`, or what is wrong with the first that cannot
be read. -/
def readSources (access : FileAccess m) (sources : Sources) :
    List String → m (Except String Sources)
  | [] => pure (.ok sources)
  | path :: paths => do
    match ← readText access path with
    | .error e => pure (.error ("failed to read " ++ path ++ ": " ++ e.text))
    | .ok text => readSources access (sources.add path text) paths

/-- Writes a file. -/
def writeFile (access : FileAccess m) (path : String) (bytes : ByteArray) : m Outcome := do
  match ← access.write path bytes with
  | .ok () => pure .success
  | .error e => pure (.failed ("failed to write " ++ path ++ ": " ++ e.text))

/-- Prints what came of the files, or writes it to its file. -/
def place (access : FileAccess m) (o : Options) (product : Product) : m Outcome :=
  if o.stdout then do
    access.print product.bytes
    pure .success
  else writeFile access product.path product.bytes

/-- Puts what came of the files where it should be, and the map where one was asked for. -/
def deliver (access : FileAccess m) (o : Options) (product : Product) : m Outcome := do
  let outcome ← place access o product
  if outcome.failure.isSome then pure outcome
  else
    match o.map, product.map with
    | some path, some map => writeFile access path map.toUTF8
    | _, _ => pure outcome

/-- A run whose arguments made sense. -/
def perform (access : FileAccess m) (program : Program) (o : Options) : m Outcome := do
  match ← readSources access .empty o.sources with
  | .error message => pure (.failed message)
  | .ok sources =>
    match produce program o sources with
    | .error refusal => pure ⟨1, refusal.diagnostics, some refusal.message⟩
    | .ok product => deliver access o product

/-- **A run of a program.** -/
def run (access : FileAccess m) (program : Program) (args : List String) : m Outcome := do
  match Options.parse program args with
  | .ok o => perform access program o
  | .error .usage => pure ⟨2, [], none⟩
  | .error .help => pure .success
  | .error .version => do
    access.print (program.name ++ " " ++ version ++ "\n").toUTF8
    pure .success

end CommandLine

end StackLang
