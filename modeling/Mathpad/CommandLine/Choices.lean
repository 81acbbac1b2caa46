import Mathpad.CommandLine.Switch
import Mathpad.Text.Numeral

/-
What the arguments of the command line ask for.

The arguments are read from left to right. A switch that needs a value takes the next argument, which
must be a value. Every value is checked, also where a later switch replaces it. There are no
arguments besides the switches and their values, and whatever does not fit makes all of them invalid.
-/
set_option autoImplicit false

namespace Mathpad.CommandLine

/-- The choices that the switches make. -/
structure Choices where
  help : Bool := false
  version : Bool := false
  healthCheck : Bool := false
  expression : Option String := none
  json : Bool := false
  format : String := "human"
  simplify : Bool := false
  plot : Option String := none
  low : Float := -10
  high : Float := 10
  points : Option Int := none
  angleUnit : Option String := none
  useFloats : Bool := false
  precision : Option Int := none

namespace Choices

/-- The value, if it is one of those that can be chosen. -/
def oneOf (choices : List String) (value : String) : Option String :=
  if choices.contains value then some value else none

/-- The forms that an answer can be asked for in. -/
def formats : List String := ["json", "human"]

/-- The units that angles can be asked for in. -/
def angleUnits : List String := ["degree", "radian"]

/-- The levels that logging can be asked for on. -/
def logLevels : List String := ["DEBUG", "INFO", "WARNING", "ERROR"]

/-- Sets a switch that takes no value. -/
def turnOn (c : Choices) : Switch → Choices
  | .help => { c with help := true }
  | .json => { c with json := true }
  | .simplify => { c with simplify := true }
  | .useFloats => { c with useFloats := true }
  | .version => { c with version := true }
  | .healthCheck => { c with healthCheck := true }
  | _ => c

/-- Sets a switch to a value, if the value fits. Nothing depends on where a log would go. -/
def put (c : Choices) (s : Switch) (value : String) : Option Choices :=
  match s with
  | .expression => some { c with expression := some value }
  | .format => (oneOf formats value).map fun format => { c with format }
  | .plot => some { c with plot := some value }
  | .low => (Text.double? value).map fun low => { c with low }
  | .high => (Text.double? value).map fun high => { c with high }
  | .points => (Text.whole? value).map fun n => { c with points := some n }
  | .angleUnit => (oneOf angleUnits value).map fun unit => { c with angleUnit := some unit }
  | .precision => (Text.whole? value).map fun n => { c with precision := some n }
  | .logLevel => (oneOf logLevels value).map fun _ => c
  | .logFile => some c
  | _ => none

/-- The choices of a list of arguments that have been told apart. -/
def ofWords (c : Choices) : List Word → Option Choices
  | [] => some c
  | .switches before last (some value) :: ws => do
    let c ← (before.foldl turnOn c).put last value
    ofWords c ws
  | .switches before last none :: ws =>
    let c := before.foldl turnOn c
    if last.takesValue then
      match ws with
      | .value text :: ws => do
        let c ← c.put last text
        ofWords c ws
      | _ => none
    else ofWords (c.turnOn last) ws
  | _ => none

/-- The choices that arguments make, if they fit. -/
def ofArguments (arguments : List String) : Option Choices :=
  ofWords {} (arguments.map Word.ofText)

end Choices
end Mathpad.CommandLine
