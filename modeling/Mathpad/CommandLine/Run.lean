import Mathpad.CommandLine.Choices
import Mathpad.Console.Basic

/-
The program as it is run from the command line.

With an expression on the command line it answers and ends, and the exit code says whether the answer
is good. Without one it opens the console. Invalid arguments end it at once with an exit code of
their own.
-/
set_option autoImplicit false

namespace Mathpad.CommandLine

/-- The version that is printed when it is asked for. -/
def version : String := "0.1.0"

/-- The exit code for invalid arguments. -/
def usageExit : Nat := 2

/-- What was printed, and the exit code or the fault that nobody guards against. -/
structure Ending where
  printed : String
  outcome : Outcome Nat

namespace Choices

/-- The preferences that are chosen; a number of digits must be above zero to count. -/
def preferences (c : Choices) : Preferences where
  settings := ⟨if c.angleUnit = some "radian" then .radian else .degree, c.useFloats⟩
  digits := match c.precision with
    | some n => if 0 < n then n else shownDigits
    | none => shownDigits

/-- The form that answers are asked for in; either of two switches asks for the first. -/
def form (c : Choices) : Form := if c.json ∨ c.format = "json" then .json else .human

/-- The setup of the console. -/
def setup (c : Choices) : Console.Setup := ⟨c.preferences, c.form⟩

/-- The answer about an expression: its curve if a variable is named for it, its reduced form, or its
value. -/
def answer (c : Choices) (text : String) : Outcome Report :=
  let parameter := c.plot.getD ""
  if parameter ≠ "" then
    Calculator.plot c.preferences text { parameter, range := ⟨c.low, c.high⟩, count := c.points }
  else if c.simplify then Calculator.simplify text
  else Calculator.evaluate c.preferences text none none

end Choices

/-- An expression as given on the command line, without the prompt that may have been copied with
it. -/
def withoutPrompt (text : String) : String :=
  let cs := Text.trimBlanks text.toList
  let mark := ">>>".toList
  String.ofList (if mark.isPrefixOf cs then Text.trimBlanks (cs.drop mark.length) else cs)

/-- The ending with the answer about one expression. -/
def answerOnce (c : Choices) (text : String) : Ending :=
  match c.answer (withoutPrompt text) with
  | .ok r => ⟨r.print c.form, .ok (if r.isOk then 0 else 1)⟩
  | .error e => ⟨"", .error e⟩

/-- What the arguments lead to. -/
inductive Plan where
  | finish (ending : Ending)
  | converse (setup : Console.Setup)

/-- Decides what to do. The version comes before everything else; the help and the health check of the
command line say nothing beyond what the console does. -/
def plan (arguments : List String) : Plan :=
  match Choices.ofArguments arguments with
  | none => .finish ⟨"", .ok usageExit⟩
  | some c =>
    if c.help then .finish ⟨printLines Console.helpLines, .ok 0⟩
    else if c.version then .finish ⟨printLines [version], .ok 0⟩
    else if c.healthCheck then .finish ⟨"", .ok 0⟩
    else
      match c.expression with
      | some text => .finish (answerOnce c text)
      | none => .converse c.setup

/-- Runs the program with the given arguments and lines of input, in an empty directory. -/
def run (arguments lines : List String) : Ending :=
  match plan arguments with
  | .finish ending => ending
  | .converse setup =>
    let (printed, fault) := Console.converse setup {} lines
    ⟨Console.banner ++ printed,
      match fault with
      | some e => .error e
      | none => .ok 0⟩

end Mathpad.CommandLine
