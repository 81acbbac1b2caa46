import Mathpad.Binary64.Text
import Mathpad.Expr.Compiled

/-
Sampling an expression over a range.

The places are spread evenly, both ends included, and counted in doubles, so that each is the lower
end plus a whole multiple of one step. The expression itself is evaluated in the arithmetic of
numbers: a place goes in as the decimal of its shortest text and the value comes out as the nearest
double. Where the expression has no value there is no sample, and the curve has a gap.
-/
set_option autoImplicit false

namespace Mathpad.Plot

/-- The part of an axis between two ends. -/
structure Range where
  low : Float
  high : Float

/-- A point of the curve. -/
structure Sample where
  x : Float
  y : Float

namespace Range

/-- The places where the expression is evaluated, at least two. -/
def places (r : Range) (count : Int) : List Float :=
  let n := (max 2 count).toNat
  let step := (r.high - r.low) / Float.ofNat (n - 1)
  (List.range n).map fun i => r.low + step * Float.ofNat i

end Range

/-- A double as a number; what is not finite counts as an overflow. -/
def numberAt (x : Float) : Outcome Number :=
  if x.isFinite then Number.ofDecimal (Binary64.toDecimal x) .exact else failMaths .overflow

namespace Sample

/-- The sample at a place; none if arithmetic has no result there. -/
def at? (c : Compiled) (x : Float) : Outcome (Option Sample) :=
  match numberAt x >>= c.apply with
  | .ok value => do return some ⟨x, Binary64.ofDecimal (← value.toDecimal)⟩
  | .error (.maths _) => .ok none
  | .error e => .error e

end Sample

/-- The samples of a compiled expression over a range, from its lower end on. -/
def samples (c : Compiled) (r : Range) (count : Int) : Outcome (List Sample) := do
  return (← (r.places count).mapM (Sample.at? c)).filterMap id

end Mathpad.Plot
