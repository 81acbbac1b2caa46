import Mathpad.CommandLine.Run

/-
The program: reads lines and files, prints, and sets the exit code. What is read and printed is decided
elsewhere.
-/
set_option autoImplicit false

namespace Mathpad.CommandLine

/-- Why the system did not open a file. -/
def fileError : IO.Error → FileError
  | .inappropriateType .. => .isADirectory
  | _ => .missing

/-- The contents of a file on disk. -/
def readFile (path : String) : IO (Except FileError Bytes) := do
  try return .ok (← IO.FS.readBinFile path).toList
  catch e => return .error (fileError e)

/-- Writes a file on disk. -/
def writeFile (path : String) (bytes : Bytes) : IO (Except FileError Unit) := do
  try return .ok (← IO.FS.writeBinFile path ⟨bytes.toArray⟩)
  catch e => return .error (fileError e)

/-- One turn of the console, with files on disk. -/
def turn (s : Console.Setup) (c : Console) (line : String) : IO Console.Turn := do
  match Console.Command.ofLine line with
  | .load path => return Console.conclude s.form c (Console.loaded path (← readFile path))
  | .save path =>
    match (Id.run (Session.save.run.run c.session)).1 with
    | .ok bytes => return Console.conclude s.form c (Console.saved path (← writeFile path bytes))
    | .error e => return .fail e
  | command => return Console.obey s c command

/-- Reports a fault that nobody guards against. -/
def giveUp (e : Fault) : IO UInt32 := do
  IO.eprintln (repr e).pretty
  return 1

/-- Works through the lines of the input. -/
partial def converse (s : Console.Setup) (c : Console) : IO UInt32 := do
  IO.print Console.prompt
  (← IO.getStdout).flush
  let line ← (← IO.getStdin).getLine
  if line.isEmpty then
    IO.print Console.farewell
    return 0
  match ← turn s c line with
  | .next c printed =>
    IO.print printed
    converse s c
  | .leave printed =>
    IO.print printed
    return 0
  | .fail e => giveUp e

/-- Runs the program. -/
def start (arguments : List String) : IO UInt32 := do
  match plan arguments with
  | .finish ending =>
    IO.print ending.printed
    match ending.outcome with
    | .ok code => return UInt32.ofNat code
    | .error e => giveUp e
  | .converse setup =>
    IO.print Console.banner
    converse setup {}

end Mathpad.CommandLine

/-- Runs the program with its arguments. -/
def main (arguments : List String) : IO UInt32 := Mathpad.CommandLine.start arguments
