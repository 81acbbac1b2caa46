import Mathpad.Cursor.Path
import Mathpad.Item.Basic

/-
The place that a path leads to, with everything around it.

Following a path passes through items, each with the row it stands in and the row inside it that the
path goes on in. These frames are kept, so that a changed row can be put back into the whole.
-/
set_option autoImplicit false

namespace Mathpad

/-- An item on the way: the row it stands in, its place there, and the slot that the way goes on in. -/
structure Frame where
  row : Row
  place : Int
  item : Item
  slot : Int

/-- The row that a path leads to, the place in it, and the frames around it, the innermost first. -/
structure Focus where
  frames : List Frame
  row : Row
  place : Int

namespace Item

/-- The row in a slot. -/
def slot (item : Item) (i : Int) : Outcome Row :=
  match item with
  | .token _ => .error (.breach .pathEntersToken)
  | _ =>
    if (item.slots.length : Int) ≤ i then .error (.breach (.slotOutOfRange i item.kind))
    else Place.get item.slots i

/-- The item with other rows in its slots. -/
def withSlots (item : Item) (rows : List Row) : Item :=
  match item, rows with
  | .sqrt _, [inner] => .sqrt inner
  | .parentheses _, [inner] => .parentheses inner
  | .power _, [exponent] => .power exponent
  | .fraction .., [top, bottom] => .fraction top bottom
  | .call f _, args => .call f args
  | item, _ => item

end Item

namespace Focus

/-- Goes on from a row inside some frames. -/
def follow (frames : List Frame) (row : Row) : Path → Outcome Focus
  | [] => .error (.mishap .indexOutOfRange)
  | [i] => .ok ⟨frames, row, i⟩
  | i :: j :: rest => do
    if (row.length : Int) ≤ i then .error (.breach (.indexOutOfRange i))
    let item ← Place.get row i
    if rest.isEmpty then .error (.breach .pathEndsOnItem)
    let inner ← item.slot j
    follow (⟨row, i, item, j⟩ :: frames) inner rest

/-- The focus of a path in a row. -/
def ofPath (root : Row) (path : Path) : Outcome Focus := follow [] root path

/-- The kinds of all rows and items that the path passes, from the outside in. -/
def trace (f : Focus) : List String :=
  (f.frames.reverse.flatMap fun frame => ["List", frame.item.kind]) ++ ["List"]

/-- A row put back into the place where an inner one was. -/
def refill (inner : Row) (frame : Frame) : Outcome Row := do
  let rows ← Place.replace frame.item.slots frame.slot inner
  Place.replace frame.row frame.place (frame.item.withSlots rows)

/-- The whole with another row in focus. -/
def rebuild (f : Focus) (row : Row) : Outcome Row := f.frames.foldlM refill row

end Focus
end Mathpad
