import Mathpad.Number.Noise

/-
Simple fractions near a decimal.

The fractions between zero and one are the nodes of a binary tree: between two neighbours `a/b` and
`c/d` lies `(a + c)/(b + d)`, and of all fractions strictly between them it has the least
denominator. Walking down the tree toward the value therefore meets the candidates in order of
denominator, and the first one within the tolerance is the simplest. The tolerance is relative to the
value, or absolute when the value is zero.
-/
set_option autoImplicit false

namespace Mathpad

-- Powers of natural numbers are those of the core library, also where those of monoids are in scope.
attribute [local instance (high)] instPowNat

/-- `k · d`, rounded to the precision, for a whole number `k`. -/
def Decimal.times (k : Nat) (d : Decimal) : Decimal :=
  ((Decimal.ofNat k).mul d).round precision

/-- A fraction of two natural numbers on the way down the tree. -/
structure TreeNode where
  num : Nat
  den : Nat
  deriving DecidableEq, Repr

/-- The node between two neighbours. -/
def TreeNode.between (a b : TreeNode) : TreeNode := ⟨a.num + b.num, a.den + b.den⟩

/-- Walks down between two neighbours until a node lies neither below `low` nor above `high`, both
compared by cross multiplication. There is no result when the denominators outgrow `limit`. -/
def walkTree (limit : Option Int) (low high : Decimal) : Nat → TreeNode → TreeNode → Option TreeNode
  | 0, _, _ => none
  | fuel + 1, left, right =>
    let middle := left.between right
    if limit.any (fun m => decide (m < (middle.den : Int))) then none
    else if (high.times middle.den).lt (Decimal.ofNat middle.num) then
      walkTree limit low high fuel left middle
    else if (Decimal.ofNat middle.num).lt (low.times middle.den) then
      walkTree limit low high fuel middle right
    else some middle

/-- The tolerance that is used unless another one is asked for. -/
def defaultTolerance : Decimal := ⟨false, 1, -9⟩

namespace Decimal

/-- The whole part of the magnitude of `d`, its fractional part and the error allowed for it. -/
def splitForSearch (d tolerance : Decimal) : Nat × Decimal × Decimal :=
  let size := d.magnitude precision
  let error := if size.digits = 0 then tolerance else (size.mul tolerance).round precision
  let whole := size.wholePart.1
  (whole, (size.sub (ofNat whole)).round precision, error)

/-- The first fraction met within `tolerance` of `d`, a relative error, with a denominator up to
`limit`. The fractional part is itself a fraction over a power of ten, and the walk reaches any
fraction in fewer steps than its denominator, which bounds the search. -/
def nearbyFraction (d tolerance : Decimal) (limit : Option Int) : Option Number :=
  let sign : Int := if d.isBelowZero then -1 else 1
  let (whole, part, error) := d.splitForSearch tolerance
  if part.lt error then some (.ratio (sign * whole) 1)
  else if ((one.sub error).round precision).lt part then some (.ratio (sign * (whole + 1)) 1)
  else
    let low := (part.sub error).round precision
    let high := (part.add error).round precision
    let steps := 10 ^ (-part.exponent).toNat + 1
    (walkTree limit low high steps ⟨0, 1⟩ ⟨1, 1⟩).map fun node =>
      .ratio (sign * (whole * node.den + node.num)) node.den

end Decimal

/-- Approximate results are shown as fractions up to this denominator. -/
def shownDenominator : Int := 10000

/-- The fraction shown beside an approximate number, if there is one that is not whole. -/
def Number.shownFraction? : Number → Option Number
  | .decimal v .approximate =>
    match v.nearbyFraction defaultTolerance (some shownDenominator) with
    | some (.ratio n d) => if d = 1 then none else some (.ratio n d)
    | _ => none
  | _ => none

/-- Significant digits of results unless a caller asks for others. -/
def shownDigits : Nat := 12

/-- The largest precision that can be asked for. -/
def largestPrecision : Int := 999999999999999999

/-- A number as a decimal in plain notation, rounded to `digits` significant digits, or to
`shownDigits` when that is zero or missing. -/
def Number.decimalText (x : Number) (digits : Option Int) : Outcome String := do
  let wanted := match digits with
    | some 0 | none => (shownDigits : Int)
    | some n => n
  if wanted < 1 ∨ largestPrecision < wanted then .error (.mishap .impossiblePrecision)
  else return String.ofList ((← x.toDecimal).round wanted.toNat).plain

end Mathpad
