import Mathpad.Cursor.Focus
import Mathpad.Drawing.OfRow

/-
Moving the cursor.

To the right the cursor steps over tokens and into everything else; at the end of a row it goes on in
the next argument of a call, or leaves the item. To the left it does the same backwards, but of a
fraction it enters only the upper part. Up and down lead from one part of a fraction to the other, to
the place that is nearest by eye.
-/
set_option autoImplicit false

namespace Mathpad.Cursor

-- The sum of an empty list is the literal `0`, also where the zero of an algebra is in scope.
attribute [local instance (high)] Zero.ofOfNat0

/-- A movement, as a change of the path. One that fails keeps what it had changed before. -/
abbrev Moving := ExceptT Fault (StateM Path)

/-! ## Right and left -/

/-- Moves by `n` places in the row that the cursor is in. -/
def shift (n : Int) : Moving Unit := do set (← (← get).shift n)

/-- Leaves the item that the cursor is in, to the right. -/
def leave : Moving Unit := do
  modify (·.pop 2)
  shift 1

/-- Moves one step to the right. -/
def right (root : Row) : Moving Unit := do
  let focus ← Focus.ofPath root (← get)
  if focus.place = focus.row.length then
    match focus.frames with
    | [] => return
    | ⟨_, _, .call _ args, slot⟩ :: _ =>
      if slot < args.length - 1 then modify fun p => ((p.pop 2).push (slot + 1)).push 0 else leave
    | _ => leave
  else
    match ← Place.get focus.row focus.place with
    | .token _ => shift 1
    | _ => modify fun p => (p.push 0).push 0

/-- Moves from before an item to the end of the row in it that is entered from the right. -/
def enterFromRight : Item → Moving Unit
  | .token _ => return
  | .call _ args => do
    modify (·.push (args.length - 1))
    let last ← Place.get args (-1)
    modify (·.push last.length)
  | item => do
    let first ← Place.get item.slots 0
    modify fun p => (p.push 0).push first.length

/-- Moves one step to the left. -/
def left (root : Row) : Moving Unit := do
  let focus ← Focus.ofPath root (← get)
  if focus.place = 0 then
    match focus.frames with
    | [] => return
    | ⟨_, _, .call _ args, slot⟩ :: _ =>
      if 0 < slot then
        let before ← Place.get args (slot - 1)
        modify fun p => ((p.pop 2).push (slot - 1)).push before.length
      else modify (·.pop 2)
    | _ => modify (·.pop 2)
  else
    shift (-1)
    enterFromRight (← Place.get focus.row (focus.place - 1))

/-! ## Up and down -/

/-- The two vertical directions. -/
inductive Direction where
  | up
  | down
  deriving DecidableEq, Repr

namespace Direction

/-- The part of a fraction that a movement starts from: the upper one has slot zero. -/
def source : Direction → Int
  | up => 1
  | down => 0

/-- The part of a fraction that a movement in the direction leads to. -/
def target : Direction → Int
  | up => 0
  | down => 1

end Direction

/-- The boundaries between items of the given widths, from `start` on. -/
def boundaries (start : Int) : List Int → List Int
  | [] => [start]
  | w :: ws => start :: boundaries (start + w) ws

/-- The first of the points that are nearest to `p`, as an index. -/
def nearest (p : Int) (points : List Int) : Nat :=
  let distances := points.map fun q => (q - p).natAbs
  distances.idxOf (distances.min?.getD 0)

/-- The widths of items. -/
def widths (r : Renderer) (row : Row) : Outcome (List Int) :=
  row.mapM fun item => do return (← Block.ofItem r 0 none item).area.width

/-- For every place in `source` the nearest place in `target`, when the two rows stand one above the
other with their middles on one line. -/
def matchPlaces (r : Renderer) (source target : Row) : Outcome (List Nat) := do
  let sourceWidths ← widths r source
  let targetWidths ← widths r target
  let difference := targetWidths.sum - sourceWidths.sum
  let sourceStart := if 0 < difference then difference / 2 else 0
  let targetStart := if difference < 0 then -difference / 2 else 0
  let points := boundaries targetStart targetWidths
  return (boundaries sourceStart sourceWidths).map (nearest · points)

/-- Looks outwards for a fraction in whose starting part the cursor is. The place is the one in the
row inside the first frame, and `depth` frames have been left behind. -/
def findVertical (r : Renderer) (direction : Direction) (path : Path) :
    List Frame → Int → Nat → Outcome (Option Path)
  | [], _, _ => .ok none
  | ⟨_, outer, .fraction top bottom, slot⟩ :: frames, place, depth =>
    if slot = direction.source then do
      let places ← match direction with
        | .up => matchPlaces r bottom top
        | .down => matchPlaces r top bottom
      let target ← Place.get places place
      return some (((path.pop (2 * depth + 2)).push direction.target).push target)
    else findVertical r direction path frames outer (depth + 1)
  | frame :: frames, _, depth => findVertical r direction path frames frame.place (depth + 1)

/-- The path up or down, if there is a fraction to move in. -/
def vertical (r : Renderer) (direction : Direction) (root : Row) (path : Path) :
    Outcome (Option Path) := do
  let focus ← Focus.ofPath root path
  findVertical r direction path focus.frames focus.place 0

end Mathpad.Cursor
