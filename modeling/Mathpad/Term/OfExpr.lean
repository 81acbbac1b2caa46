import Mathpad.Expr.Basic
import Mathpad.Term.Basic

/-
The term that an expression stands for.

A difference becomes a sum with a negated member, a quotient a product with a reciprocal, and a
square root the power one half. Parentheses vanish.
-/
set_option autoImplicit false

namespace Mathpad.Expr

mutual

/-- The term of an expression, in which roots are powers and differences and quotients are sums and
products. -/
def toTerm : Expr → Term
  | number x => .number x
  | var name => .var name
  | sqrt inner => .power inner.toTerm Term.half
  | parentheses inner => inner.toTerm
  | power base exponent => .power base.toTerm exponent.toTerm
  | binary .add left right => .sum [left.toTerm, right.toTerm]
  | binary .subtract left right => .sum [left.toTerm, right.toTerm.negate]
  | binary .multiply left right => .product [left.toTerm, right.toTerm]
  | binary .divide left right => .product [left.toTerm, right.toTerm.reciprocal]
  | call f args => .call f (toTerms args)

/-- The terms of some expressions. -/
def toTerms : List Expr → List Term
  | [] => []
  | e :: es => e.toTerm :: toTerms es

end

end Mathpad.Expr
