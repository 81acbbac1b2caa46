import Mathpad.Drawing.Notation
import Mathpad.Expr.Basic

/-
Laying out expressions.

A number is drawn digit by digit, a fraction of two whole numbers as a fraction. Quotients are
fractions too; the other operations stand between their operands.
-/
set_option autoImplicit false

namespace Mathpad.Block

/-- The glyph for a character of a number. -/
def numeralGlyph (c : Char) : Outcome Glyph :=
  if c = '.' then .ok .point
  else if c.isDigit then .ok (.digit (c.toNat - 48))
  else .error (.mishap .signAmongDigits)

/-- A decimal in positional notation with all its places. A minus stands in front of a number below
zero; a zero that carries a sign cannot be drawn. -/
def ofDecimal (r : Renderer) (level : Int) (d : Decimal) : Outcome Block := do
  let size := if d.isBelowZero then d.negate precision else d
  let numerals ← size.positional.mapM numeralGlyph
  let glyphs := if d.isBelowZero then .subtract :: numerals else numerals
  return row (glyphs.map (ofGlyph r level))

/-- The block of a number, as one would write it. -/
def ofNumber (r : Renderer) (level : Int) : Number → Outcome Block
  | .decimal v _ => ofDecimal r level v
  | .ratio n d =>
    if d = 1 then ofDecimal r level (Decimal.ofInt n)
    else do
      let numerator ← (Decimal.ofInt n).fit
      let top ← ofDecimal r level numerator
      let denominator ← (Decimal.ofInt d).fit
      return fraction r level top (← ofDecimal r level denominator)

/-- The glyph between the operands of an operation. -/
def operatorGlyph : BinaryOp → Glyph
  | .add => .add
  | .subtract => .subtract
  | .multiply => .multiply
  | .divide => .divide

/-- Two blocks side by side with an operator between them. -/
def joined (r : Renderer) (level : Int) (op : BinaryOp) (left right : Block) : Block :=
  let operator := (ofGlyph r level (operatorGlyph op)).rightOf left
  (left.alongBaseline operator).alongBaseline (right.rightOf operator)

mutual

/-- The block of an expression. Exponents are laid out one level smaller. -/
def ofExpr (r : Renderer) (level : Int) : Expr → Outcome Block
  | .number x => ofNumber r level x
  | .var name => .ok (ofGlyph r level (.var name))
  | .sqrt inner => do return root r level (← ofExpr r level inner)
  | .parentheses inner => do return parenthesised r level (← ofExpr r level inner)
  | .power base exponent => do
    let b ← ofExpr r level base
    return raised b (← ofExpr r (level + 1) exponent)
  | .binary .divide left right => do
    let top ← ofExpr r level left
    return fraction r level top (← ofExpr r level right)
  | .binary op left right => do
    let l ← ofExpr r level left
    return joined r level op l (← ofExpr r level right)
  | .call f args => do return call r level f (← ofExprs r level args)

/-- The blocks of some expressions. -/
def ofExprs (r : Renderer) (level : Int) : List Expr → Outcome (List Block)
  | [] => .ok []
  | e :: es => do
    let b ← ofExpr r level e
    return b :: (← ofExprs r level es)

end

end Mathpad.Block
