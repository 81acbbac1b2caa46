import Mathpad.Fault

/-
Reports: what a user is told about an expression.

A report either carries a complaint or is good; beside that it has the parts that the question asked
for. The parts have names and an order, which are those of every form in which a report is written.
-/
set_option autoImplicit false

namespace Mathpad

/-- What is reported about one command: its answer, or a complaint. -/
structure Report where
  complaint : Option Complaint := none
  result : Option String := none
  /-- The result as a decimal of moderate length. -/
  approx : Option String := none
  /-- A simple fraction near an approximate result. -/
  fraction : Option String := none
  /-- The variables that occur, in the order of their first use. -/
  freeSymbols : Option (List String) := none
  /-- The lines of a drawing. -/
  rendered : Option (List String) := none
  deriving DecidableEq, Repr

namespace Report

/-- Whether nothing is complained about. -/
def isOk (r : Report) : Bool := r.complaint.isNone

/-- The report that consists of a complaint. -/
def ofComplaint (c : Complaint) : Report := { complaint := some c }

/-- The report of a drawing alone. -/
def ofLines (lines : List String) : Report := { rendered := some lines }

/-- The report of an outcome: a fault that is the user's becomes a complaint, which `mark` may add
parts to, and any other fault stays one. -/
def ofOutcome (x : Outcome Report) (mark : Report → Report) : Outcome Report :=
  match x with
  | .ok r => .ok r
  | .error e =>
    match e.complaint? with
    | some c => .ok (mark (ofComplaint c))
    | none => .error e

/-! ## Parts -/

/-- The value of a part. -/
inductive Part where
  | flag (value : Bool)
  | text (value : String)
  | texts (values : List String)
  deriving DecidableEq, Repr

/-- The parts that a report has, with their names, in their order. -/
def parts (r : Report) : List (String × Part) :=
  [("ok", some (.flag r.isOk)), ("result", r.result.map .text), ("approx", r.approx.map .text),
    ("fraction", r.fraction.map .text), ("free_symbols", r.freeSymbols.map .texts),
    ("rendered", r.rendered.map .texts), ("error", r.complaint.map (.text ·.message)),
    ("error_code", r.complaint.map (.text ·.code))].filterMap
    fun (name, part?) => part?.map (name, ·)

/-! ## In one line -/

/-- The value of a part with its texts quoted. -/
def Part.quoted : Part → String
  | .flag b => if b then "True" else "False"
  | .text s => Text.quote s
  | .texts l => "[" ++ ", ".intercalate (l.map Text.quote) ++ "]"

/-- The names of the parts that are left out of the line: the drawing always, and of a report with a
complaint everything but the complaint. -/
def omitted (r : Report) : List String :=
  if r.isOk then ["rendered"] else ["result", "approx", "fraction", "free_symbols", "rendered"]

/-- The report in one line, as a call that would build it. -/
def summary (r : Report) : String :=
  let shown := r.parts.filter fun (name, _) => !r.omitted.contains name
  "EvalResult(" ++ ", ".intercalate (shown.map fun (name, part) => name ++ "=" ++ part.quoted) ++ ")"

end Report
end Mathpad
