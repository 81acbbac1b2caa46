import Mathpad.Fault

/-
Places in a list.

A place is a whole number. From zero on it counts from the start of the list; a negative one counts
from the end, so that minus one is the last member.
-/
set_option autoImplicit false

namespace Mathpad.Place

/-- The index of the member at a place. -/
def index? (length : Nat) (place : Int) : Option Nat :=
  if 0 ≤ place then (if place < length then some place.toNat else none)
  else if place.natAbs ≤ length then some (length - place.natAbs)
  else none

/-- The gap between members at a place. A place beyond an end stands for that end. -/
def gap (length : Nat) (place : Int) : Nat :=
  if 0 ≤ place then min place.toNat length else length - place.natAbs

/-- The member at a place. -/
def get {α : Type} (xs : List α) (place : Int) : Outcome α :=
  match (index? xs.length place).bind (xs[·]?) with
  | some x => .ok x
  | none => .error (.mishap .indexOutOfRange)

/-- The list with a new member in the gap at a place. -/
def insert {α : Type} (xs : List α) (place : Int) (x : α) : List α :=
  xs.insertIdx (gap xs.length place) x

/-- The list without the member at a place. -/
def erase {α : Type} (xs : List α) (place : Int) : Outcome (List α) :=
  match index? xs.length place with
  | some i => .ok (xs.eraseIdx i)
  | none => .error (.mishap .indexOutOfRange)

/-- The list with another member at a place. -/
def replace {α : Type} (xs : List α) (place : Int) (x : α) : Outcome (List α) :=
  match index? xs.length place with
  | some i => .ok (xs.set i x)
  | none => .error (.mishap .indexOutOfRange)

end Mathpad.Place
