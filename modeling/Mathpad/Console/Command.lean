import Mathpad.Text.Blank

/-
The commands of the console.

A line that begins with a colon is a command for the session or the drawing; its name ends at the first
space, and what follows is its argument. A few words are commands of their own, in letters of either
case. Any other line is an expression.
-/
set_option autoImplicit false

namespace Mathpad.Console

/-- What can be asked on a line of the console. -/
inductive Command where
  /-- An empty line. -/
  | nothing
  | quit
  | help
  | keys (script : String)
  | display
  | evaluate
  | clear
  | save (path : String)
  | load (path : String)
  | simplify (text : String)
  | plot (line : String)
  | unknown (name : String)
  | expression (text : String)
  deriving DecidableEq, Repr

namespace Command

/-- The command of a given name, which begins with a colon, with its argument. -/
def named (name argument : String) : Command :=
  match name with
  | ":keys" => keys argument
  | ":show" => display
  | ":eval" => evaluate
  | ":clear" => clear
  | ":save" => save argument
  | ":load" => load argument
  | ":simplify" => simplify argument
  | ":plot" => plot argument
  | _ => unknown name

/-- The command that a line gives. -/
def ofLine (line : String) : Command :=
  let cs := Text.trimBlanks line.toList
  let word := String.ofList (cs.map Char.toLower)
  if cs.isEmpty then nothing
  else if word = "quit" ∨ word = "exit" then quit
  else if word = "help" then help
  else if cs.head? = some ':' then
    let name := cs.takeWhile (· ≠ ' ')
    named (String.ofList name) (String.ofList (Text.trimBlanks (cs.drop (name.length + 1))))
  else expression (String.ofList cs)

end Command
end Mathpad.Console
