import Mathpad.NamedFunction
import Mathpad.Number.Arithmetic

/-
Terms: expressions with fewer kinds of nodes, for rewriting.

There are no differences and no quotients: `a - b` is `a + (-1) * b` and `a / b` is `a * b ^ (-1)`.
Sums and products have any number of members, so that bringing equal ones together is a matter of
sorting and scanning a list.
-/
set_option autoImplicit false

namespace Mathpad

/-- A term in the form in which terms are compared and reduced. Differences, quotients and roots
have no form of their own. -/
inductive Term where
  | number (x : Number)
  | var (name : String)
  | product (factors : List Term)
  | power (base exponent : Term)
  | sum (terms : List Term)
  | call (f : NamedFunction) (args : List Term)
  deriving Inhabited, Repr

namespace Term

/-! ## Building -/

/-- The term times minus one. -/
def negate (t : Term) : Term := .product [.number Number.minusOne, t]

/-- The term to the power minus one. -/
def reciprocal (t : Term) : Term := .power t (.number Number.minusOne)

/-- The exponent of a square root. -/
def half : Term := .number (.ratio 1 2)

/-- The number that a term is. -/
def number? : Term → Option Number
  | number x => some x
  | _ => none

/-- The members of a term as part of a product. -/
def factors : Term → List Term
  | product ts => ts
  | t => [t]

/-- The members of a term as part of a sum. -/
def summands : Term → List Term
  | sum ts => ts
  | t => [t]

mutual

/-- Whether two terms are the same. Numbers are the same when their parts are equal. -/
def beq : Term → Term → Bool
  | number x, number y => x.same y
  | var a, var b => a == b
  | product ts, product us => beqAll ts us
  | sum ts, sum us => beqAll ts us
  | power b e, power b' e' => beq b b' && beq e e'
  | call f ts, call g us => f == g && beqAll ts us
  | _, _ => false

/-- Whether two lists of terms are equal, member by member. -/
def beqAll : List Term → List Term → Bool
  | [], [] => true
  | t :: ts, u :: us => beq t u && beqAll ts us
  | _, _ => false

end

instance : BEq Term := ⟨beq⟩

/-! ## Flattening -/

mutual

/-- Lifts the members of a sum inside a sum, and of a product inside a product, to the outer one. -/
def flatten : Term → Term
  | number x => .number x
  | var name => .var name
  | product ts => .product ((flattenAll ts).flatMap factors)
  | sum ts => .sum ((flattenAll ts).flatMap summands)
  | power b e => .power b.flatten e.flatten
  | call f ts => .call f (flattenAll ts)

/-- Flattens each of some terms. -/
def flattenAll : List Term → List Term
  | [] => []
  | t :: ts => t.flatten :: flattenAll ts

end

/-! ## Variables -/

mutual

/-- The uses of variables from left to right. -/
def variableUses : Term → List String
  | number _ => []
  | var name => [name]
  | product ts => variableUsesAll ts
  | sum ts => variableUsesAll ts
  | power b e => b.variableUses ++ e.variableUses
  | call _ ts => variableUsesAll ts

/-- The variables in some terms, as often as they occur. -/
def variableUsesAll : List Term → List String
  | [] => []
  | t :: ts => t.variableUses ++ variableUsesAll ts

end

/-- The variables in the order of their first use. -/
def variableNames (t : Term) : List String := t.variableUses.eraseDups

/-! ## Text -/

/-- Whether a term stands in a product or a power without parentheses, unless a minus comes first. -/
def isAtomic : Term → Bool
  | number _ | var _ | call .. => true
  | _ => false

/-- The text of a term inside an operation, given the text it has alone. -/
def wrap (t : Term) (alone : List Char) : List Char :=
  if t.isAtomic && alone.head? != some '-' then alone else '(' :: alone ++ [')']

/-- The texts of the members of a sum, joined by plus signs except where a minus stands already. -/
def joinSummands : List (List Char) → List Char
  | [] => []
  | part :: parts =>
    part ++ parts.flatMap fun p => if p.head? = some '-' then p else '+' :: p

mutual

/-- The characters of a term's text. -/
def chars : Term → List Char
  | number x => x.text.toList
  | var name => name.toList
  | product ts => ['*'].intercalate (wrappedAll ts)
  | sum ts => joinSummands (summandTexts ts)
  | power b e => wrap b b.chars ++ '^' :: wrap e e.chars
  | call f ts => f.name.toList ++ '(' :: [','].intercalate (charsAll ts) ++ [')']

/-- The texts of some terms. -/
def charsAll : List Term → List (List Char)
  | [] => []
  | t :: ts => t.chars :: charsAll ts

/-- The texts of some terms, each in parentheses where it needs them. -/
def wrappedAll : List Term → List (List Char)
  | [] => []
  | t :: ts => wrap t t.chars :: wrappedAll ts

/-- The texts of the members of a sum, in which a product needs no parentheses. -/
def summandTexts : List Term → List (List Char)
  | [] => []
  | .product us :: ts => (Term.product us).chars :: summandTexts ts
  | t :: ts => wrap t t.chars :: summandTexts ts

end

/-- The text of a term, which can be read as an expression again. -/
def text (t : Term) : String := String.ofList t.chars

end Term
end Mathpad
