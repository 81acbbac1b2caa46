import Mathpad.Item.Place

/-
Paths to the cursor.

A path lists indexes from the outside in: an item of the outermost row, a row inside that item, an
item of that row, and so on. The last index is a place between items, so the path to a cursor has an
odd number of indexes.
-/
set_option autoImplicit false

namespace Mathpad

/-- The way to a cursor: in turn the index of an item and that of a row in it, and at the end a
place. -/
abbrev Path := List Int

namespace Path

/-! ## Changing a path -/

/-- The path without its last `n` indexes; a negative number counts what is kept from the end. -/
def pop (p : Path) (n : Int) : Path := p.take (Place.gap p.length (p.length - n))

/-- A path that goes one step further. -/
def push (p : Path) (i : Int) : Path := p ++ [i]

/-- The path with its last index moved by `n`, which must not lead before the start of the row. -/
def shift (p : Path) (n : Int) : Outcome Path :=
  match p.getLast? with
  | none => .error (.mishap .indexOutOfRange)
  | some i =>
    if i + n < 0 then .error (.breach (.offsetBeforeStart n)) else .ok (p.dropLast ++ [i + n])

/-- Whether a path stays in the outermost row. -/
def isOuter (p : Path) : Bool := p.length == 1

/-! ## Following a path -/

/-- The first index, and what follows it. -/
def split : Path → Outcome (Int × Path)
  | i :: rest => .ok (i, rest)
  | [] => .error (.mishap .indexOutOfRange)

/-- The path inside the given slot, if it leads there. -/
def intoSlot (path : Option Path) (slot : Int) : Outcome (Option Path) :=
  match path with
  | none => .ok none
  | some p => do
    let (i, rest) ← p.split
    return if i = slot then some rest else none

/-- The paths inside the two parts of a fraction. -/
def intoFraction (path : Option Path) : Outcome (Option Path × Option Path) :=
  match path with
  | none => .ok (none, none)
  | some p => do
    let (i, rest) ← p.split
    if i = 0 then return (some rest, none)
    else if i = 1 then return (none, some rest)
    else .error (.breach (.noFractionSlot i))

/-- Where a path leads in a row: to a place for the cursor, or into one of the items. -/
inductive Target where
  | nowhere
  | cursor (place : Int)
  | into (index : Nat) (rest : Path)

/-- The target in a row of `length` items. A path to an item behind the last one leads nowhere. -/
def target (path : Option Path) (length : Nat) : Outcome Target :=
  match path with
  | none => .ok .nowhere
  | some [i] => .ok (.cursor i)
  | some p => do
    let (i, rest) ← p.split
    if (length : Int) ≤ i then return .nowhere
    else
      match Place.index? length i with
      | some k => return .into k rest
      | none => .error (.mishap .indexOutOfRange)

/-- The part of a target that concerns the item at `index`. -/
def Target.inside (t : Target) (index : Nat) : Option Path :=
  match t with
  | .into k rest => if k = index then some rest else none
  | _ => none

end Path
end Mathpad
