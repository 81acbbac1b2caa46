import Mathpad.Report.Basic

/-
Reports as JSON text.

Every part of the report and every element of a list stands on a line of its own, indented by two
spaces for each bracket around it; an empty list is two brackets. Characters stand for themselves
except the quotation mark, the backslash and the control characters.
-/
set_option autoImplicit false

namespace Mathpad.Report

/-- How `c` is written in a string. -/
def escaped (c : Char) : List Char :=
  match c with
  | '"' => ['\\', '"']
  | '\\' => ['\\', '\\']
  | '\x08' => ['\\', 'b']
  | '\x0c' => ['\\', 'f']
  | '\n' => ['\\', 'n']
  | '\r' => ['\\', 'r']
  | '\t' => ['\\', 't']
  | c => if c.toNat < 0x20 then '\\' :: 'u' :: Text.hexDigits 4 c.toNat else [c]

/-- A string in quotation marks. -/
def string (s : String) : String :=
  String.ofList ('"' :: s.toList.flatMap escaped ++ ['"'])

/-- Elements between two brackets, each on a line of its own behind `indent`. -/
def bracketed (left right indent outer : String) (elements : List String) : String :=
  if elements.isEmpty then left ++ right
  else
    left ++ "\n" ++ ",\n".intercalate (elements.map (indent ++ ·)) ++ "\n" ++ outer ++ right

/-- The value of a part of the report. -/
def Part.json : Part → String
  | .flag b => if b then "true" else "false"
  | .text s => string s
  | .texts l => bracketed "[" "]" "    " "  " (l.map string)

/-- The report as a JSON object. -/
def json (r : Report) : String :=
  bracketed "\x7b" "\x7d" "  " "" (r.parts.map fun (name, part) => string name ++ ": " ++ part.json)

end Mathpad.Report
