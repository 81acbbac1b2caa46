import Mathpad.Drawing.Notation
import Mathpad.Cursor.Path

/-
Laying out rows of items, with or without a cursor.

A cursor is given by what is left of its path. Where only one index is left the cursor stands in the
row at hand, before the item of that index; otherwise the index picks the item that the path goes
into, and the next one picks the row inside that item. A cursor is as high as the taller of its two
neighbours.
-/
set_option autoImplicit false

namespace Mathpad

namespace Block

/-! ## The cursor in a row -/

/-- The block beside which the cursor stands. -/
def besideCursor (r : Renderer) (level : Int) (bs : List Block) (place : Int) : Outcome Block :=
  if bs.isEmpty then .ok (ofGlyph r level (.digit 0))
  else if place = 0 then Place.get bs 0
  else if place = bs.length then Place.get bs (-1)
  else do
    let after ← Place.get bs place
    let before ← Place.get bs (place - 1)
    return if before.area.height < after.area.height then after else before

/-- The blocks of a row with the cursor among them. -/
def withCursor (r : Renderer) (level : Int) (target : Path.Target) (bs : List Block) :
    Outcome (List Block) :=
  match target with
  | .cursor place => do
    let beside ← besideCursor r level bs place
    let cursor := { ofGlyph r level (.cursor beside.area.height) with baseline := beside.baseline }
    return Place.insert bs place cursor
  | _ => .ok bs

/-- The block of a row, given the blocks of its items. An empty row shows a placeholder. -/
def ofItemBlocks (r : Renderer) (level : Int) (target : Path.Target) (bs : List Block) :
    Outcome Block := do
  match ← withCursor r level target bs with
  | [] => return row [ofGlyph r level .placeholder]
  | bs => return row bs

/-! ## Items and rows -/

mutual

/-- The block of an item. Exponents are laid out one level smaller. -/
def ofItem (r : Renderer) (level : Int) (path : Option Path) : Item → Outcome Block
  | .token t => .ok (ofGlyph r level (.ofToken t))
  | .sqrt inner => do
    let target ← Path.target (← Path.intoSlot path 0) inner.length
    return root r level (← ofItemBlocks r level target (← ofItems r level target 0 inner))
  | .parentheses inner => do
    let target ← Path.target (← Path.intoSlot path 0) inner.length
    return parenthesised r level (← ofItemBlocks r level target (← ofItems r level target 0 inner))
  | .power exponent => do
    let target ← Path.target (← Path.intoSlot path 0) exponent.length
    let blocks ← ofItems r (level + 1) target 0 exponent
    return superscript (← ofItemBlocks r (level + 1) target blocks)
  | .fraction top bottom => do
    let (above, under) ← Path.intoFraction path
    let target ← Path.target above top.length
    let numerator ← ofItemBlocks r level target (← ofItems r level target 0 top)
    let target ← Path.target under bottom.length
    let denominator ← ofItemBlocks r level target (← ofItems r level target 0 bottom)
    return fraction r level numerator denominator
  | .call f args => do return call r level f (← ofArgs r level path 0 args)

/-- The blocks of items that stand from `index` on in their row. -/
def ofItems (r : Renderer) (level : Int) (target : Path.Target) (index : Nat) :
    List Item → Outcome (List Block)
  | [] => .ok []
  | item :: items => do
    let b ← ofItem r level (target.inside index) item
    return b :: (← ofItems r level target (index + 1) items)

/-- The blocks of the arguments from `slot` on. -/
def ofArgs (r : Renderer) (level : Int) (path : Option Path) (slot : Nat) :
    List (List Item) → Outcome (List Block)
  | [] => .ok []
  | arg :: args => do
    let target ← Path.target (← Path.intoSlot path slot) arg.length
    let b ← ofItemBlocks r level target (← ofItems r level target 0 arg)
    return b :: (← ofArgs r level path (slot + 1) args)

end

/-- The block of a row. -/
def ofRow (r : Renderer) (level : Int) (path : Option Path) (items : Row) : Outcome Block := do
  let target ← Path.target path items.length
  ofItemBlocks r level target (← ofItems r level target 0 items)

/-- How much of the cursor lies outside a window. -/
def cursorVisibility (b : Block) (viewport : Option Viewport) : Outcome Visibility :=
  match b.glyphs.find? (·.glyph.isCursor) with
  | some g => .ok (Viewport.look viewport g.place g.area)
  | none => .error (.breach .cursorNotDrawn)

end Block
end Mathpad
