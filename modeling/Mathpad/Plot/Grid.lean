import Mathpad.Plot.Sample

/-
Samples drawn with characters.

A grid has its lowest row at the least value and its first column at the lower end of the range. A
place on an axis is scaled to the distance between the first and the last line of the grid and cut off
to a whole number, so that only the upper end itself falls on the last line. Samples are stars; the
axes are drawn behind them where zero is in range.
-/
set_option autoImplicit false

namespace Mathpad.Plot

/-- How many rows and columns there are. -/
structure Grid where
  rows : Int
  columns : Int
  deriving DecidableEq, Repr

namespace Grid

/-- How many lines a plot has unless it is asked for more. -/
def defaultRows : Int := 20

/-- How many columns a plot has unless it is asked for more. -/
def defaultColumns : Int := 60

/-- A grid of the size asked for; zero asks for nothing in particular. -/
def ofSize (rows columns : Option Int) : Grid :=
  let chosen (asked : Option Int) (default : Int) : Int :=
    match asked with
    | some n => if n = 0 then default else n
    | none => default
  ⟨chosen rows defaultRows, chosen columns defaultColumns⟩

end Grid

/-- The whole part of a double, cut off toward zero. Beyond 64 bits it is the last integer there is,
which no grid reaches. -/
def wholePart (x : Float) : Outcome Int :=
  if x.isNaN then .error (.mishap .notANumber)
  else if x.isInf then .error (.mishap .infinite)
  else .ok x.toInt64.toInt

namespace Range

/-- The range that a nonempty list of values spans. -/
def spanned : List Float → Outcome Range
  | [] => .error (.mishap .leastOfNothing)
  | y :: ys =>
    .ok ⟨ys.foldl (fun low v => if v < low then v else low) y,
      ys.foldl (fun high v => if high < v then v else high) y⟩

/-- The length that values are scaled by; a range of one value has the length one. -/
def length (r : Range) : Float := if r.high != r.low then r.high - r.low else 1

/-- Which of `count` lines a value falls on, if they are spread over the range. -/
def line (r : Range) (count : Int) (v : Float) : Outcome Int :=
  wholePart ((v - r.low) / r.length * Float.ofInt (count - 1))

/-- The line of zero; a range without zero has none, which is `-1`. -/
def zeroLine (r : Range) (count : Int) : Outcome Int :=
  if r.low ≤ 0 && 0 ≤ r.high then r.line count 0 else .ok (-1)

end Range

namespace Grid

/-- A cell of a grid, counted from the bottom left. -/
structure Cell where
  row : Int
  column : Int
  deriving DecidableEq, Repr

/-- The nearest line of `count` to `n`. -/
def clamp (count n : Int) : Int := max 0 (min (count - 1) n)

/-- Where a sample is drawn. -/
def cellOf (g : Grid) (x y : Range) (s : Sample) : Outcome Cell := do
  let column ← x.line g.columns s.x
  let row ← y.line g.rows s.y
  if g.rows ≤ 0 ∨ g.columns ≤ 0 then .error (.mishap .indexOutOfRange)
  else return ⟨clamp g.rows row, clamp g.columns column⟩

/-- What stands behind the samples: the axes, whose lines are those of `zero`. -/
def background (zero p : Cell) : Char :=
  if p.row = zero.row then (if p.column = zero.column then '+' else '-')
  else if p.column = zero.column then '|'
  else ' '

/-- One row of the drawing, given the cells of the samples. -/
def drawRow (g : Grid) (zero : Cell) (stars : List Cell) (row : Int) : List Char :=
  let inRow := (stars.filter (·.row = row)).map (·.column)
  (List.range g.columns.toNat).map fun k : Nat =>
    if inRow.contains (k : Int) then '*' else background zero ⟨row, k⟩

/-- The lines of the drawing from the top down. -/
def draw (g : Grid) (x : Range) (samples : List Sample) : Outcome (List String) := do
  let y ← Range.spanned (samples.map (·.y))
  let stars ← samples.mapM (g.cellOf x y)
  let row ← y.zeroLine g.rows
  let column ← x.zeroLine g.columns
  return (List.range g.rows.toNat).reverse.map fun r : Nat =>
    String.ofList (g.drawRow ⟨row, column⟩ stars r)

end Grid
end Mathpad.Plot
