import Mathpad.Report.Json

/-
Reports as they are printed.

For people, a complaint is one line; otherwise come the drawing, the result, its decimal form unless
it is the same, and the fraction near it. For programs, the report is JSON. Either way every line
ends in a line break.
-/
set_option autoImplicit false

namespace Mathpad

/-- For whom reports are printed. -/
inductive Form where
  | human
  | json
  deriving DecidableEq, Repr

/-- Lines, each with a line break at its end. -/
def printLines (lines : List String) : String := String.join (lines.map (· ++ "\n"))

namespace Report

/-- The lines for people of a report without a complaint. A part without text counts as missing. -/
def goodLines (r : Report) : List String :=
  let decimal := r.approx.filter fun text => text ≠ "" ∧ some text ≠ r.result
  r.rendered.getD [] ++ r.result.toList ++
    (decimal.map ("Decimal: " ++ ·)).toList ++
    ((r.fraction.filter (· ≠ "")).map ("Fraction: ~ " ++ ·)).toList

/-- The lines of a report for people. -/
def lines (r : Report) : List String :=
  match r.complaint with
  | some c => ["Error: " ++ c.message]
  | none => r.goodLines

/-- A report as it is printed. -/
def print (r : Report) : Form → String
  | .human => printLines r.lines
  | .json => printLines [r.json]

end Report
end Mathpad
