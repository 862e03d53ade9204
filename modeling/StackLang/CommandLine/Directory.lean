/-
**Access to files.**

What a program needs to read and to write, whatever the files are kept in, and a directory in
memory, which has files but no further directories.

Main definitions:

* `FileError` — why a file cannot be read or written;
* `FileAccess` — reading, writing and printing;
* `Directory`, `Directory.access` — files in memory.
-/

set_option relaxedAutoImplicit false
set_option autoImplicit false

namespace StackLang

namespace CommandLine

/-- Why a file cannot be read or written. -/
inductive FileError where
  | notFound
  | denied
  /-- A file stands where the path needs a directory. -/
  | notADirectory
  /-- A directory stands where the path needs a file. -/
  | isADirectory
  /-- The bytes are no text. -/
  | notText
  | other (text : String)
deriving DecidableEq, Repr

namespace FileError

/-- The description of the error, with the number that the system gives it. -/
def text : FileError → String
  | notFound => "No such file or directory (os error 2)"
  | denied => "Permission denied (os error 13)"
  | notADirectory => "Not a directory (os error 20)"
  | isADirectory => "Is a directory (os error 21)"
  | notText => "stream did not contain valid UTF-8"
  | other t => t

end FileError

/-- What a program needs to read and to write. -/
structure FileAccess (m : Type → Type) where
  read : String → m (Except FileError ByteArray)
  write : String → ByteArray → m (Except FileError Unit)
  print : ByteArray → m Unit

/-! ### A directory in memory -/

/-- Files in memory, and what has been printed. -/
structure Directory where
  files : List (String × ByteArray)
  printed : ByteArray

namespace Directory

/-- The parts of a path between slashes. -/
def components : List Char → List (List Char)
  | [] => [[]]
  | c :: cs =>
    if c = '/' then [] :: components cs
    else
      match components cs with
      | [] => [[c]]
      | part :: parts => (c :: part) :: parts

/-- The name of the file that a path stands for.  A path may start with the directory itself, but it
cannot lead further. -/
def locate (d : Directory) (path : String) : Except FileError String :=
  match components path.toList with
  | [] :: _ => .error .notFound
  | parts =>
    match parts.dropWhile fun part => part = ['.'] ∨ part = [] with
    | [] => .error .isADirectory
    | [['.', '.']] => .error .isADirectory
    | [name] => .ok (String.ofList name)
    | name :: _ =>
      if d.files.any fun (n, _) => n = String.ofList name then .error .notADirectory
      else .error .notFound

/-- The bytes of a file. -/
def read (d : Directory) (path : String) : Except FileError ByteArray :=
  match d.locate path with
  | .error e => .error e
  | .ok name =>
    match d.files.lookup name with
    | some bytes => .ok bytes
    | none => .error .notFound

/-- Whether a path is the name of one entry of the directory with slashes behind it, which can only
be meant as a directory. -/
def endsWithSlash (path : String) : Bool :=
  match (components path.toList).dropWhile fun part => part = ['.'] ∨ part = [] with
  | _ :: rest => rest ≠ [] ∧ rest.all fun part => part = []
  | [] => false

/-- The directory with other bytes in a file, which is new if there was none of its name. -/
def write (d : Directory) (path : String) (bytes : ByteArray) : Except FileError Directory :=
  match d.locate path with
  | .error e => .error (if endsWithSlash path then .isADirectory else e)
  | .ok name => .ok { d with files := (name, bytes) :: d.files.filter fun (n, _) => n ≠ name }

/-- The directory after something was printed. -/
def print (d : Directory) (bytes : ByteArray) : Directory :=
  { d with printed := d.printed ++ bytes }

/-- Access to the directory. -/
def access : FileAccess (StateM Directory) where
  read := fun path d => (d.read path, d)
  write := fun path bytes d =>
    match d.write path bytes with
    | .ok d => (.ok (), d)
    | .error e => (.error e, d)
  print := fun bytes d => ((), d.print bytes)

end Directory

end CommandLine

end StackLang
