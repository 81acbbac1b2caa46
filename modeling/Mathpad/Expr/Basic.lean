import Mathpad.NamedFunction
import Mathpad.Number.Arithmetic

/-
Expressions: what a row of items means once it is known what belongs together.

Every operation has its operands inside it, so an expression can be evaluated and rewritten without
looking around. Parentheses are kept, because they are drawn, but mean nothing of their own.
-/
set_option autoImplicit false

namespace Mathpad

/-! ## The type -/

/-- The operators that stand between two operands. -/
inductive BinaryOp where
  | add
  | subtract
  | multiply
  | divide
  deriving DecidableEq, Repr

namespace BinaryOp

/-- Sums and differences, which bind weakest. -/
def isAdditive : BinaryOp → Bool
  | add | subtract => true
  | multiply | divide => false

/-- What an operator makes of two numbers. -/
def apply : BinaryOp → Number → Number → Outcome Number
  | add => Number.add
  | subtract => Number.sub
  | multiply => Number.mul
  | divide => Number.div

end BinaryOp

/-- An expression as a tree. Parentheses are kept, as they are drawn. -/
inductive Expr where
  | number (x : Number)
  | var (name : String)
  | sqrt (inner : Expr)
  | parentheses (inner : Expr)
  | power (base exponent : Expr)
  | binary (op : BinaryOp) (left right : Expr)
  | call (f : NamedFunction) (args : List Expr)
  deriving Inhabited, Repr

namespace Expr

/-! ## Evaluation -/

mutual

/-- The value of an expression without variables. Operands are evaluated from left to right, and the
first failure is the one reported. -/
def eval (settings : EvalSettings) : Expr → Outcome Number
  | number x => .ok x
  | var _ => failMaths .missingVariable
  | sqrt inner => do (← inner.eval settings).sqrt
  | parentheses inner => inner.eval settings
  | power base exponent => do
    let x ← base.eval settings
    x.pow (← exponent.eval settings)
  | binary op left right => do
    let x ← left.eval settings
    op.apply x (← right.eval settings)
  | call f args => do f.eval (← evalAll settings args) settings

/-- The values of expressions, in their order. -/
def evalAll (settings : EvalSettings) : List Expr → Outcome (List Number)
  | [] => .ok []
  | e :: es => do
    let x ← e.eval settings
    return x :: (← evalAll settings es)

end

/-! ## Variables -/

mutual

/-- Replaces every use of a variable. -/
def substitute (name : String) (replacement : Expr) : Expr → Expr
  | number x => .number x
  | var n => if n = name then replacement else .var n
  | sqrt inner => .sqrt (substitute name replacement inner)
  | parentheses inner => .parentheses (substitute name replacement inner)
  | power base exponent =>
    .power (substitute name replacement base) (substitute name replacement exponent)
  | binary op left right =>
    .binary op (substitute name replacement left) (substitute name replacement right)
  | call f args => .call f (substituteAll name replacement args)

/-- Substitutes in each of some expressions. -/
def substituteAll (name : String) (replacement : Expr) : List Expr → List Expr
  | [] => []
  | e :: es => substitute name replacement e :: substituteAll name replacement es

end

mutual

/-- The uses of variables from left to right. -/
def variableUses : Expr → List String
  | number _ => []
  | var name => [name]
  | sqrt inner => inner.variableUses
  | parentheses inner => inner.variableUses
  | power base exponent => base.variableUses ++ exponent.variableUses
  | binary _ left right => left.variableUses ++ right.variableUses
  | call _ args => variableUsesAll args

/-- The variables in some expressions, as often as they occur. -/
def variableUsesAll : List Expr → List String
  | [] => []
  | e :: es => e.variableUses ++ variableUsesAll es

end

/-- The variables in the order of their first use. -/
def variableNames (e : Expr) : List String := e.variableUses.eraseDups

/-! ## Showing the order of operations -/

/-- Whether the operator that is outermost is an addition or a subtraction. -/
def isAdditive : Expr → Bool
  | binary op _ _ => op.isAdditive
  | _ => false

/-- Whether an expression has an operator between two operands outermost. -/
def isBinary : Expr → Bool
  | binary .. => true
  | _ => false

/-- The expression, in parentheses if `wanted`. -/
def wrapIf (wanted : Bool) (e : Expr) : Expr := if wanted then .parentheses e else e

/-- The operands of the outermost operation with parentheses where the operation would read
differently without them: a sum inside a product, and on the right an operation of the same
strength. -/
def disambiguate : Expr → Expr
  | binary op left right =>
    if op.isAdditive then .binary op left (wrapIf right.isAdditive right)
    else .binary op (wrapIf left.isAdditive left) (wrapIf right.isBinary right)
  | e => e

end Expr
end Mathpad
