import Mathpad.Drawing.Canvas
import Mathpad.Drawing.OfExpr
import Mathpad.Expr.OfRow
import Mathpad.Number.Nearby
import Mathpad.Plot.Grid
import Mathpad.Report.Basic
import Mathpad.Term.OfExpr
import Mathpad.Term.Reduce

/-
What can be asked about the text of an expression: its value, its reduced form, its drawing, whether
it is one at all, and its curve.

Each answer is a report. What is wrong with the text or has no value becomes a complaint in it, and the
drawing and the variables are there even if the value is not. Only what nobody guards against leaves
as a fault.
-/
set_option autoImplicit false

namespace Mathpad

/-- What a user has set for all answers. -/
structure Preferences where
  settings : EvalSettings := {}
  /-- Significant digits of the decimal form of results. -/
  digits : Int := shownDigits
  deriving DecidableEq, Repr

namespace Calculator

/-- An answer about the expression that a text spells; a text that spells none is complained about. -/
def withExpr (text : String) (answer : Expr → Outcome Report) : Outcome Report :=
  match Expr.ofText text with
  | .ok e => answer e
  | .error e => Report.ofOutcome (.error e) id

/-- The lines of an expression. -/
def draw (e : Expr) (viewport : Option Viewport) : Outcome (List String) := do
  (← Block.ofExpr Renderer.ascii 0 e.disambiguate).lines viewport

/-! ## Values -/

/-- The report of a value: as it is, as a decimal and, where it is approximate, as a fraction. -/
def ofValue (digits : Int) (value : Number) : Outcome Report := do
  return {
    result := some value.text
    approx := some (← value.decimalText (some digits))
    fraction := value.shownFraction?.map Number.text }

/-- The settings of a user, changed as one question asks for. -/
def chosenSettings (base : EvalSettings) (angle : Option String) (useFloats : Option Bool) :
    Outcome EvalSettings := do
  let angle ← match angle with
    | some name => AngleUnit.ofName name
    | none => pure base.angle
  return ⟨angle, useFloats.getD base.useFloats⟩

/-- The value of an expression. An angle unit is asked for by its name. -/
def evaluate (p : Preferences) (text : String) (angle : Option String) (useFloats : Option Bool) :
    Outcome Report :=
  withExpr text fun e => do
    let lines ← draw e none
    let mark (r : Report) : Report :=
      { r with freeSymbols := some e.variableNames, rendered := some lines }
    let settings ← chosenSettings p.settings angle useFloats
    match e.eval settings with
    | .ok value => return mark (← ofValue p.digits value.denoise)
    | .error fault => Report.ofOutcome (.error fault) mark

/-! ## Forms -/

/-- The reduced form of an expression. -/
def simplify (text : String) : Outcome Report :=
  Report.ofOutcome
    (do
      let reduced := (← (← Expr.ofText text).toTerm.simplify).term
      return { result := some reduced.text, freeSymbols := some reduced.variableNames })
    id

/-- The drawing of an expression, through a window if both its width and its height are given. -/
def render (text : String) (width height : Option Int) : Outcome Report :=
  withExpr text fun e => do
    let window : Option Viewport :=
      match width, height with
      | some w, some h => if w = 0 ∨ h = 0 then none else some ⟨⟨w, h⟩, Point.origin⟩
      | _, _ => none
    return Report.ofLines (← draw e window)

/-- Whether a text spells an expression, and which variables the expression has. -/
def validate (text : String) : Outcome Report :=
  withExpr text fun e => return { freeSymbols := some e.variableNames }

end Calculator

/-! ## Curves -/

namespace Plot

/-- Why there is no plot. -/
inductive Problem where
  | noImages
  | emptyRange
  | noPoints
  deriving DecidableEq, Repr

/-- What is complained about a problem. -/
def Problem.complaint : Problem → Complaint
  | noImages =>
    ⟨"matplotlib not installed. Use ascii=True for ASCII plot.", "MISSING_DEPENDENCY"⟩
  | emptyRange => ⟨"x_min must be below x_max", "BAD_RANGE"⟩
  | noPoints => ⟨"Cannot plot: function has no values in range", "NO_POINTS"⟩

/-- How many places are sampled unless a number is asked for. -/
def defaultCount : Int := 100

/-- What a plot is asked to show. Zero places ask for the default number of them. -/
structure Request where
  parameter : String := "x"
  range : Range := ⟨-10, 10⟩
  count : Option Int := none
  asImage : Bool := false

end Plot

namespace Calculator

/-- The curve of an expression against a variable, in characters. No image can be drawn. -/
def plot (p : Preferences) (text : String) (request : Plot.Request) : Outcome Report :=
  if request.asImage then .ok (Report.ofComplaint Plot.Problem.noImages.complaint)
  else if request.range.low ≥ request.range.high then
    .ok (Report.ofComplaint Plot.Problem.emptyRange.complaint)
  else
    withExpr text fun e => do
      let count := match request.count with
        | some 0 | none => Plot.defaultCount
        | some n => n
      let compiled := Compiled.ofExpr e (some request.parameter) p.settings
      let samples ← Plot.samples compiled request.range count
      if samples.isEmpty then return Report.ofComplaint Plot.Problem.noPoints.complaint
      else return Report.ofLines (← (Plot.Grid.ofSize none none).draw request.range samples)

end Calculator
end Mathpad
