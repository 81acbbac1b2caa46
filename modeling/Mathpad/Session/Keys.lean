import Mathpad.Session.Basic
import Mathpad.Text.Letter

/-
Keys, and scripts of them.

In a script `<name>` presses the key of that name and any other character that is not blank is typed.
A name consists of small letters; a bracket that begins no such name is typed like anything else.
-/
set_option autoImplicit false

namespace Mathpad

/-- A key: one that types a character, or one that has a name. -/
inductive Key where
  | named (name : String)
  | typed (c : Char)
  deriving DecidableEq, Repr

namespace Key

/-- Whether the name of a key may contain the character. -/
def isNameChar (c : Char) : Bool := 'a' ≤ c && c ≤ 'z'

/-- The name of the key that `<cs` begins with. -/
def name? (cs : List Char) : Option (List Char) :=
  let name := cs.takeWhile isNameChar
  if name ≠ [] ∧ (cs.drop name.length).head? = some '>' then some name else none

/-- The keys of a script after its first `skip` characters. -/
def ofChars (skip : Nat) : List Char → List Key
  | [] => []
  | c :: cs =>
    match skip with
    | n + 1 => ofChars n cs
    | 0 =>
      match if c = '<' then name? cs else none with
      | some name => .named (String.ofList name) :: ofChars (name.length + 1) cs
      | none => if Text.isBlank c then ofChars 0 cs else .typed c :: ofChars 0 cs

/-- The keys of a script. -/
def ofScript (script : String) : List Key := ofChars 0 script.toList

/-- The item that a key inserts: an empty root, fraction, power, pair of parentheses or call. -/
def item? (name : String) : Option Item :=
  match name with
  | "frac" => some (.fraction [] [])
  | "sqrt" => some (.sqrt [])
  | "pow" => some (.power [])
  | "paren" => some (.parentheses [])
  | _ => (NamedFunction.ofName? name).map Item.emptyCall

end Key

namespace Session

/-- Types a text as one token: an operator, a point or digits, or letters as the name of a variable. -/
def typeText (s : String) : Editing Unit :=
  match Token.ofText? s with
  | some t => insert (.token t)
  | none =>
    if s ≠ "" ∧ s.toList.all Text.isLetter then insert (.var s)
    else throw (.input (.cannotType s))

/-- Presses the key of a given name. -/
def press (defaults : EvalSettings) (name : String) : Editing Unit :=
  match name with
  | "left" => moveLeft
  | "right" => moveRight
  | "up" => discard (moveVertically .up)
  | "down" => discard (moveVertically .down)
  | "bs" => delete
  | "clear" => clear
  | "eq" => discard (replaceWithResult defaults)
  | _ =>
    match Key.item? name with
    | some item => insert item
    | none => throw (.input (.unknownKey name))

/-- Presses or types a key. -/
def strike (defaults : EvalSettings) : Key → Editing Unit
  | .named name => press defaults name
  | .typed c => typeText (String.singleton c)

/-- Runs a script, up to the first key that fails. -/
def run (defaults : EvalSettings) (script : String) : Editing Unit :=
  (Key.ofScript script).forM (strike defaults)

end Session
end Mathpad
