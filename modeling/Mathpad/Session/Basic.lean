import Mathpad.Binary.Item
import Mathpad.Cursor.Move
import Mathpad.Drawing.Canvas
import Mathpad.Expr.OfRow
import Mathpad.Number.Noise

/-
Editing a row with a cursor, seen through a window.

A session is the row, the path to the cursor and perhaps a window. An action that fails keeps what was
done before the failure, so that an action which moves the cursor to where the window cannot show it
has still moved it. What is wrong with the name of a key, or with the expression that it evaluates, is
found out before anything is changed.
-/
set_option autoImplicit false

namespace Mathpad

/-- What is edited: a row, where the cursor is in it, and a window on its drawing, if there is one.
-/
structure Session where
  root : Row := []
  path : Path := [0]
  viewport : Option Viewport := none

/-- An action on a session, which may fail. -/
abbrev Editing := ExceptT Fault (StateM Session)

namespace Session

/-! ## The window -/

/-- The offset at which a window shows an item that is now seen as `seen`. An item that is cut off on
two opposite sides cannot be shown. -/
def scrolled (offset : Point) (seen : Visibility) : Outcome Point :=
  if seen.top ≠ 0 ∧ seen.bottom ≠ 0 then .error (.breach .cursorTooTall)
  else if seen.left ≠ 0 ∧ seen.right ≠ 0 then .error (.breach .cursorTooWide)
  else .ok (offset.moved (seen.right - seen.left) (seen.bottom - seen.top))

/-- Scrolls the window, if there is one, to show the cursor. -/
def showCursor : Editing Unit := do
  let s ← get
  match s.viewport with
  | none => return
  | some v =>
    let block ← Block.ofRow Renderer.ascii 0 (some s.path) s.root
    let seen ← block.cursorVisibility (some v)
    if seen.clipped then
      let offset ← scrolled v.offset seen
      set { s with viewport := some { v with offset } }

/-! ## Moving -/

/-- Moves the cursor to where a path leads, and shows it. -/
def goTo (path : Path) : Editing Unit := do
  modify fun s => { s with path }
  showCursor

/-- Makes a movement, and shows the cursor. -/
def move (movement : Cursor.Moving Unit) : Editing Unit := do
  let s ← get
  let (result, path) := Id.run (movement.run.run s.path)
  set { s with path }
  result
  showCursor

/-- Moves the cursor to the right. -/
def moveRight : Editing Unit := do move (Cursor.right (← get).root)

/-- Moves the cursor to the left. -/
def moveLeft : Editing Unit := do move (Cursor.left (← get).root)

/-- Moves up or down; the answer says whether there was a fraction to move in. -/
def moveVertically (direction : Cursor.Direction) : Editing Bool := do
  let s ← get
  let target ← Cursor.vertical Renderer.ascii direction s.root s.path
  goTo (target.getD s.path)
  return target.isSome

/-! ## Changing the row -/

/-- Puts an item before the cursor, which moves behind a token and into anything else. -/
def insert (item : Item) : Editing Unit := do
  let s ← get
  let focus ← Focus.ofPath s.root s.path
  let root ← focus.rebuild (Place.insert focus.row focus.place item)
  set { s with root }
  goTo (← match item with
    | .token _ => s.path.shift 1
    | _ => pure ((s.path.push 0).push 0))

/-- Deletes the item before the cursor. At the start of an inner row the cursor first moves right,
until there is an item before it; so an empty item is deleted from inside. The number bounds the
moves. -/
def deleteWithin : Nat → Editing Unit
  | 0 => throw (.mishap .endless)
  | moves + 1 => do
    let s ← get
    let focus ← Focus.ofPath s.root s.path
    if 0 < focus.place then
      let root ← focus.rebuild (← Place.erase focus.row (focus.place - 1))
      set { s with root }
      goTo (← s.path.shift (-1))
    else if s.path.isOuter then showCursor
    else
      moveRight
      deleteWithin moves
      showCursor

/-- Deletes the item before the cursor. No way to the right is longer than there are places. -/
def delete : Editing Unit := do deleteWithin ((← get).root.places + 1)

/-- Removes everything and brings the cursor and the window back to the start. -/
def clear : Editing Unit :=
  modify fun s =>
    { root := [], path := [0], viewport := s.viewport.map fun v => { v with offset := Point.origin } }

/-! ## Meaning -/

/-- The expression that the row stands for. -/
def expression : Editing Expr := do Expr.ofRow (← get).root

/-- The number that the row evaluates to. -/
def evaluate (settings : EvalSettings) : Editing Number := do (← expression).eval settings

/-- Puts another row in place of everything, with the cursor at the given place. -/
def replaceAll (root : Row) (place : Int) : Editing Unit := do
  modify fun s => { s with root }
  goTo [place]

/-- Replaces the row by its value, with the cursor behind it. -/
def replaceWithResult (settings : EvalSettings) : Editing Number := do
  let value := (← evaluate settings).denoise
  let root := Row.ofNumber value
  replaceAll root root.length
  return value

/-! ## Files -/

/-- The bytes of a file that keeps the row. -/
def save : Editing Bytes := do (← get).root.toBytes

/-- Takes the row from the bytes of a file, with the cursor at the start. -/
def load (fileName : String) (bytes : Bytes) : Editing Unit := do
  match Row.ofBytes? bytes with
  | some root => replaceAll root 0
  | none => throw (.input (.unreadableSession fileName))

/-! ## Drawing -/

/-- The lines of the row as the window shows it. -/
def lines (s : Session) (withCursor : Bool) : Outcome (List String) := do
  let block ← Block.ofRow Renderer.ascii 0 (if withCursor then some s.path else none) s.root
  block.lines s.viewport

end Session
end Mathpad
