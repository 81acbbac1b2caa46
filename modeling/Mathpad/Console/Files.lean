import Mathpad.Binary.Basic
import Mathpad.Text.Quoted

/-
The directory that sessions are saved in.

It holds files and no other directory, so a name that leads through one leads nowhere. Opening a file
fails for one of a few reasons, each with its number and its wording.
-/
set_option autoImplicit false

namespace Mathpad

/-- Why a file cannot be opened. -/
inductive FileError where
  | missing
  | notADirectory
  | isADirectory
  | nameTooLong
  deriving DecidableEq, Repr

/-- The line that reports a file which cannot be opened. -/
def FileError.message (name : String) (e : FileError) : String :=
  let reason := match e with
    | missing => "[Errno 2] No such file or directory: "
    | notADirectory => "[Errno 20] Not a directory: "
    | isADirectory => "[Errno 21] Is a directory: "
    | nameTooLong => "[Errno 36] File name too long: "
  reason ++ Text.quote name

/-- The files of a directory with their contents. -/
abbrev Files := List (String × Bytes)

namespace Files

/-- A name has at most this many bytes. -/
def maxNameBytes : Nat := 255

/-- The parts of a path between its strokes; an empty part is the directory itself. -/
def steps (path : String) : List String :=
  (path.splitOn "/").filter fun part => part ≠ "" ∧ part ≠ "."

/-- The name of the file that a path leads to. A path from the root leads out of the directory. -/
def resolve (files : Files) (path : String) : Except FileError String :=
  if path = "" then .error .missing
  else if path.startsWith "/" then
    .error (if (steps path).isEmpty then .isADirectory else .missing)
  else
    match steps path with
    | [] => .error .isADirectory
    | [name] =>
      if maxNameBytes < name.utf8ByteSize then .error .nameTooLong
      else if name = ".." then .error .isADirectory
      else .ok name
    | first :: _ =>
      if maxNameBytes < first.utf8ByteSize then .error .nameTooLong
      else if (files.lookup first).isSome then .error .notADirectory
      else .error .missing

/-- Whether a path asks for a directory by its end. -/
def endsAsDirectory (path : String) : Bool :=
  path.endsWith "/" || path.endsWith "/."

/-- The contents of a file. -/
def read (files : Files) (path : String) : Except FileError Bytes := do
  let name ← files.resolve path
  match files.lookup name with
  | some bytes => if endsAsDirectory path then .error .notADirectory else .ok bytes
  | none => .error .missing

/-- The directory with a file written, in place of one with the same name. -/
def write (files : Files) (path : String) (bytes : Bytes) : Except FileError Files := do
  let name ← files.resolve path
  if endsAsDirectory path then .error .isADirectory
  else .ok ((name, bytes) :: files.filter (·.1 ≠ name))

end Files
end Mathpad
