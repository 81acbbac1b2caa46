import Mathpad.Text.Digit

/-
The switches of the command line and how one argument is read.

A switch has a long name, and some have a short one of a single letter. A long name may be cut short as
long as only one switch begins that way. A value may be joined to a long name by an equals sign, and
to a short one directly or by an equals sign; short switches that take no value may be written
together behind one dash. An argument that begins with a dash and is no switch is a value all the same
if it is a negative number or has a space in it.
-/
set_option autoImplicit false

namespace Mathpad.CommandLine

/-- What can be switched on a command line. -/
inductive Switch where
  | help
  | expression
  | json
  | format
  | simplify
  | plot
  | low
  | high
  | points
  | angleUnit
  | useFloats
  | precision
  | version
  | logLevel
  | logFile
  | healthCheck
  deriving DecidableEq, Repr

namespace Switch

/-- All switches. -/
def all : List Switch :=
  [help, expression, json, format, simplify, plot, low, high, points, angleUnit, useFloats,
    precision, version, logLevel, logFile, healthCheck]

/-- The long name of a switch, without the dashes. -/
def longName : Switch → String
  | help => "--help"
  | expression => "--eval"
  | json => "--json"
  | format => "--format"
  | simplify => "--simplify"
  | plot => "--plot"
  | low => "--x-min"
  | high => "--x-max"
  | points => "--points"
  | angleUnit => "--angle-unit"
  | useFloats => "--use-floats"
  | precision => "--precision"
  | version => "--version"
  | logLevel => "--log-level"
  | logFile => "--log-file"
  | healthCheck => "--health-check"

/-- The letter of the short name. -/
def letter? : Switch → Option Char
  | help => some 'h'
  | expression => some 'e'
  | json => some 'j'
  | precision => some 'p'
  | version => some 'v'
  | _ => none

/-- Whether a switch comes with a value. -/
def takesValue : Switch → Bool
  | help | json | simplify | useFloats | version | healthCheck => false
  | _ => true

/-- The switch of a letter, if there is one. -/
def ofLetter? (c : Char) : Option Switch := all.find? (·.letter? == some c)

/-- The switches whose long name begins with `cs`. -/
def startingWith (cs : List Char) : List Switch :=
  all.filter fun s => cs.isPrefixOf s.longName.toList

/-- The switch of a long name, which may be cut short. -/
def ofLongName? (cs : List Char) : Option Switch :=
  match all.find? (·.longName.toList == cs), startingWith cs with
  | some s, _ => some s
  | none, [s] => some s
  | none, _ => none

end Switch

/-- What one argument says. -/
inductive Word where
  | value (text : String)
  /-- Switches without a value, and a last one with the value joined to it, if there is one. -/
  | switches (before : List Switch) (last : Switch) (joined : Option String)
  | invalid
  deriving DecidableEq, Repr

namespace Word

/-- Splits at the first equals sign. -/
def splitAtEquals (cs : List Char) : List Char × Option (List Char) :=
  let name := cs.takeWhile (· ≠ '=')
  match cs.drop name.length with
  | [] => (name, none)
  | _ :: text => (name, some text)

/-- What a switch says with a value behind an equals sign. -/
def ofGiven (s : Switch) (text : List Char) : Word :=
  if s.takesValue then switches [] s (some (String.ofList text)) else invalid

/-- What is said by a switch and then by another word. -/
def after (s : Switch) : Word → Word
  | switches before last given => switches (s :: before) last given
  | w => w

/-- What a switch says when `cs` is joined to its short name: its value, or, for a switch without a
value, more short switches. -/
def ofJoined (s : Switch) : List Char → Word
  | [] => ofGiven s []
  | c :: cs =>
    if s.takesValue then ofGiven s (c :: cs)
    else
      match Switch.ofLetter? c, cs with
      | none, _ => invalid
      | some t, [] => switches [s] t none
      | some t, d :: ds => after s (if d = '=' then ofGiven t ds else ofJoined t (d :: ds))

/-- Whether `cs` is a negative number: a dash and digits, perhaps with a point among them but not
behind them, and perhaps a line break at the end. -/
def isNegativeNumber (cs : List Char) : Bool :=
  let isDigit (c : Char) : Bool := (Text.digitValue? c).isSome
  match cs with
  | '-' :: body =>
    let body := if body.getLast? = some '\n' then body.dropLast else body
    match body.dropWhile isDigit with
    | [] => !body.isEmpty
    | '.' :: places => !places.isEmpty && places.all isDigit
    | _ => false
  | _ => false

/-- What an argument with a dash says that names no switch. -/
def nameless (cs : List Char) : Word :=
  if isNegativeNumber cs || cs.contains ' ' then value (String.ofList cs) else invalid

/-- What an argument with two dashes says. -/
def ofLong (cs : List Char) : Word :=
  let (name, given) := splitAtEquals cs
  match Switch.ofLongName? name, given with
  | some s, none => switches [] s none
  | some s, some text => ofGiven s text
  | none, _ => if (Switch.startingWith name).isEmpty then nameless cs else invalid

/-- What an argument with one dash and the letter `c` behind it says. -/
def ofShort (c : Char) (rest : List Char) : Word :=
  match Switch.ofLetter? c, rest with
  | none, _ => nameless ('-' :: c :: rest)
  | some s, [] => switches [] s none
  | some s, '=' :: text => ofGiven s text
  | some s, rest => ofJoined s rest

/-- What an argument says. -/
def ofText (argument : String) : Word :=
  match argument.toList with
  | '-' :: '-' :: [] => invalid
  | '-' :: '-' :: cs => ofLong ('-' :: '-' :: cs)
  | '-' :: c :: cs => ofShort c cs
  | _ => value argument

end Word
end Mathpad.CommandLine
