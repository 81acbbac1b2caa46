import Mathpad.Number.Basic
import Mathpad.NamedFunction

/-
What stands on the pad: rows of items.

A row is a flat list. Most items are tokens, the size of one character and with nothing inside; only
where two dimensions are needed does an item hold rows of its own. Nothing says yet what belongs
together: the base of a power is whatever stands before it, and a number is just a run of digits.
-/
set_option autoImplicit false

namespace Mathpad

/-! ## Tokens -/

/-- An item with nothing inside. On a pad every digit is one of the ten, and variables mostly have
names of one character, but neither is required here. -/
inductive Token where
  | add
  | subtract
  | multiply
  | divide
  | point
  | digit (value : Int)
  | var (name : String)
  deriving DecidableEq, Repr

namespace Token

/-- The token that a character stands for. No character stands for a variable: any could. -/
def ofChar? (c : Char) : Option Token :=
  if c.isDigit then some (.digit (c.toNat - 48))
  else
    match c with
    | '+' => some .add
    | '-' => some .subtract
    | '*' => some .multiply
    | '/' => some .divide
    | '.' => some .point
    | _ => none

/-- The token that a text stands for as a whole. A row of digits counts as one. -/
def ofText? (s : String) : Option Token :=
  match s.toList with
  | [c] => ofChar? c
  | cs =>
    if cs ≠ [] ∧ cs.all Char.isDigit then some (.digit (Decimal.digitsValue cs)) else none

/-- The text that a token is written as. -/
def text : Token → String
  | add => "+"
  | subtract => "-"
  | multiply => "*"
  | divide => "/"
  | point => "."
  | digit value => toString value
  | var name => name

/-- Whether a number literal can go on with this token. -/
def isNumeral : Token → Bool
  | point | digit _ => true
  | _ => false

end Token

/-! ## Items and rows -/

/-- What a row consists of: single tokens, and items with rows inside of them. -/
inductive Item where
  | token (t : Token)
  | sqrt (inner : List Item)
  | fraction (top bottom : List Item)
  | parentheses (inner : List Item)
  /-- An exponent; its base is what stands before it. -/
  | power (exponent : List Item)
  | call (f : NamedFunction) (args : List (List Item))
  deriving Inhabited, Repr

/-- Items side by side. -/
abbrev Row := List Item

namespace Item

/-- The item of a digit. -/
def digit (n : Int) : Item := .token (.digit n)

/-- The item of a variable. -/
def var (name : String) : Item := .token (.var name)

/-- A call with an empty row for each argument. -/
def emptyCall (f : NamedFunction) : Item := .call f (List.replicate f.arity [])

/-- The rows inside an item, in the order in which they are numbered. -/
def slots : Item → List Row
  | token _ => []
  | sqrt inner => [inner]
  | fraction top bottom => [top, bottom]
  | parentheses inner => [inner]
  | power exponent => [exponent]
  | call _ args => args

mutual

/-- The number of places for a cursor inside an item. -/
def places : Item → Nat
  | token _ => 0
  | sqrt inner => placesBehind inner + 1
  | fraction top bottom => placesBehind top + 1 + (placesBehind bottom + 1)
  | parentheses inner => placesBehind inner + 1
  | power exponent => placesBehind exponent + 1
  | call _ args => placesInArgs args

/-- The number of places for a cursor behind and inside the items of a row. -/
def placesBehind : List Item → Nat
  | [] => 0
  | item :: items => item.places + 1 + placesBehind items

/-- The places in the arguments of a call, with one at the end of each. -/
def placesInArgs : List (List Item) → Nat
  | [] => 0
  | row :: rows => placesBehind row + 1 + placesInArgs rows

end

/-- The kind of an item as it is named in messages. -/
def kind : Item → String
  | token _ => "TokenNode"
  | sqrt _ => "Sqrt"
  | fraction .. => "Fraction"
  | parentheses _ => "Parentheses"
  | power _ => "Power"
  | call .. => "FunctionCall"

mutual

/-- Whether two items are the same. -/
def beq : Item → Item → Bool
  | token t, token u => t == u
  | sqrt r, sqrt s => beqRow r s
  | fraction r s, fraction r' s' => beqRow r r' && beqRow s s'
  | parentheses r, parentheses s => beqRow r s
  | power r, power s => beqRow r s
  | call f rs, call g ss => f == g && beqRows rs ss
  | _, _ => false

/-- Whether two rows are equal, item by item. -/
def beqRow : List Item → List Item → Bool
  | [], [] => true
  | a :: r, b :: s => beq a b && beqRow r s
  | _, _ => false

/-- Whether two lists of rows are equal, row by row. -/
def beqRows : List (List Item) → List (List Item) → Bool
  | [], [] => true
  | r :: rs, s :: ss => beqRow r s && beqRows rs ss
  | _, _ => false

end

instance : BEq Item := ⟨beq⟩

end Item

/-! ## A number as a row -/

namespace Row

/-- The number of places for a cursor in a row, also inside its items. -/
def places (row : Row) : Nat := Item.placesBehind row + 1

/-- The tokens for the characters of a number's text. -/
def ofChars (cs : List Char) : Row := (cs.filterMap Token.ofChar?).map Item.token

/-- The row that shows a number: its digits, or a fraction when it has a denominator. -/
def ofNumber : Number → Row
  | .ratio n d =>
    if d = 1 then ofChars (toString n).toList
    else [.fraction (ofChars (toString n).toList) (ofChars (toString d).toList)]
  | .decimal v _ => ofChars v.plain

end Row
end Mathpad
