import Mathpad.Calculator
import Mathpad.Console.Command
import Mathpad.Console.Files
import Mathpad.Console.Words
import Mathpad.Report.Plain
import Mathpad.Session.Keys

/-
The console: one session, worked on line by line.

Each line is a command, and each command has an answer, mostly a report. A failure that is the user's
is reported like any other answer, and what the command did before it remains done. A failure that
nobody guards against ends the console.
-/
set_option autoImplicit false

namespace Mathpad

/-- What a conversation goes on with: the session that is edited, and the files that there are. -/
structure Console where
  session : Session := { viewport := some ⟨⟨40, 8⟩, Point.origin⟩ }
  files : Files := []

/-- How the console was started. -/
structure Console.Setup where
  preferences : Preferences := {}
  form : Form := .human
  deriving DecidableEq, Repr

namespace Console

/-! ## Answers -/

/-- What is printed for a command. -/
inductive Answer where
  | silence
  | line (text : String)
  | report (r : Report)
  deriving DecidableEq, Repr

/-- The text of an answer in a form. -/
def Answer.print (form : Form) : Answer → String
  | silence => ""
  | line text => printLines [text]
  | report r => r.print form

/-- A command at work: it changes the console and may fail. -/
abbrev Working := ExceptT Fault (StateM Console)

/-- An action on the session of the console. -/
def onSession {α : Type} (action : Editing α) : Working α := do
  let c ← get
  let (result, session) := Id.run (action.run.run c.session)
  set { c with session }
  result

/-! ## Commands -/

/-- The session as the window shows it. -/
def display : Working Answer := do return .report (Report.ofLines (← (← get).session.lines true))

/-- The value of the session. -/
def evaluate (p : Preferences) : Working Answer := do
  let value ← onSession (Session.evaluate p.settings)
  return .report (← Calculator.ofValue p.digits value.denoise)

/-- A path that names a file, of which no character may end the name early. -/
def checkPath (path : String) : Outcome Unit :=
  if path.toList.contains (Char.ofNat 0) then .error (.mishap .nulInFileName) else .ok ()

/-- The answer about a file that may not have been opened. -/
def aboutFile {α : Type} (path : String) (x : Except FileError α) (answer : α → Working Answer) :
    Working Answer :=
  match x with
  | .ok a => answer a
  | .error e => return .line ("Error: " ++ e.message path)

/-- The answer to saving. -/
def saved (path : String) (written : Except FileError Unit) : Working Answer :=
  aboutFile path written fun _ => return .line ("Saved session to " ++ path)

/-- Saves the session. The file is opened, and so emptied, before the session is written. -/
def save (path : String) : Working Answer := do
  checkPath path
  let c ← get
  aboutFile path (c.files.write path []) fun opened => do
    set { c with files := opened }
    let bytes ← onSession Session.save
    aboutFile path (opened.write path bytes) fun files => do
      modify fun c => { c with files }
      saved path (.ok ())

/-- Goes on with the contents of a file as the session, and shows it. -/
def loaded (path : String) (contents : Except FileError Bytes) : Working Answer :=
  aboutFile path contents fun bytes => do
    onSession (Session.load path bytes)
    display

/-- Loads a saved session. -/
def load (path : String) : Working Answer := do
  checkPath path
  loaded path ((← get).files.read path)

/-- What is said to a plot without an expression. -/
def plotUsage : Complaint := ⟨"Usage: :plot EXPR [VAR]", "BAD_COMMAND"⟩

/-- The curve of an expression, given as the first word of a line; the second word, if there is one,
is the variable. -/
def plot (p : Preferences) (line : String) : Working Answer := do
  match ← words line with
  | [] => return .report (Report.ofComplaint plotUsage)
  | [text] => return .report (← Calculator.plot p text {})
  | text :: parameter :: _ => return .report (← Calculator.plot p text { parameter })

/-- The help of the console. -/
def helpLines : List String :=
  ["Type an expression to evaluate it, e.g. 3/5+2/3+7/4 or frac(1,2)+sqrt(16).",
    "",
    "Editing session commands:",
    "  :keys SCRIPT      Press keys: characters are typed, <name> keys pressed",
    "                    (<left> <right> <up> <down> <bs> <clear> <frac> <sqrt>",
    "                    <pow> <paren> <sin> <cos> <gcd> <eq>)",
    "  :show             Render the session with its cursor",
    "  :eval             Evaluate the session",
    "  :clear            Empty the session",
    "  :save PATH        Save the session to a file",
    "  :load PATH        Load a session saved with :save",
    "",
    "Other commands:",
    "  :simplify EXPR    Reduce an expression symbolically",
    "  :plot EXPR [VAR]  Draw an ASCII plot of EXPR against VAR (default x)",
    "  help              Show this text",
    "  quit, exit        Leave",
    ""]

/-- Carries out a command. Quitting is not for the console to do. -/
def perform (p : Preferences) : Command → Working Answer
  | .nothing | .quit => return .silence
  | .help => return .line ("\n".intercalate helpLines)
  | .keys script => do
    onSession (Session.run p.settings script)
    display
  | .display => display
  | .evaluate => evaluate p
  | .clear => do
    onSession Session.clear
    return .silence
  | .save path => save path
  | .load path => load path
  | .simplify text => do return .report (← Calculator.simplify text)
  | .plot line => plot p line
  | .unknown name =>
    return .line ("Error: Unknown command " ++ name ++ ". Type 'help' for commands.")
  | .expression text => do return .report (← Calculator.evaluate p text none none)

/-! ## Lines -/

/-- What a line leads to. -/
inductive Turn where
  | next (console : Console) (printed : String)
  | leave (printed : String)
  | fail (e : Fault)

/-- The turn that work on the console leads to. -/
def conclude (form : Form) (c : Console) (work : Working Answer) : Turn :=
  let (result, c) := Id.run (work.run.run c)
  match result with
  | .ok answer => .next c (answer.print form)
  | .error e =>
    match e.complaint? with
    | some complaint => .next c ((Report.ofComplaint complaint).print form)
    | none => .fail e

/-- The turn that a command leads to. -/
def obey (s : Setup) (c : Console) : Command → Turn
  | .quit => .leave (printLines ["Goodbye."])
  | command => conclude s.form c (perform s.preferences command)

/-- The turn that a line leads to. -/
def step (s : Setup) (c : Console) (line : String) : Turn := obey s c (Command.ofLine line)

/-- What the console says first. -/
def banner : String := printLines ["Rumus - type 'help' for commands, 'quit' to exit."]

/-- What stands before every line that is read. -/
def prompt : String := ">>> "

/-- What is printed when no line is left to read. -/
def farewell : String := printLines ["", "Goodbye."]

/-- Everything that is printed while the lines are worked through, and the fault that ended it, if
one did. -/
def converse (s : Setup) : Console → List String → String × Option Fault
  | _, [] => (prompt ++ farewell, none)
  | c, line :: lines =>
    match step s c line with
    | .next c printed =>
      let (more, fault) := converse s c lines
      (prompt ++ printed ++ more, fault)
    | .leave printed => (prompt ++ printed, none)
    | .fail e => (prompt, some e)

end Console
end Mathpad
