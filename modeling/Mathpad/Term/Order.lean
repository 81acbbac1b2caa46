import Mathpad.Term.Basic

/-
The order of terms, and sorting by it.

Terms of different kinds are ordered by kind: numbers first, so that they can be collected at the
front of a sum or a product. Within a kind, numbers are ordered by value, variables by name, and
anything else by its members from left to right. Comparing fails only on numbers that have no decimal
value.

Terms that compare equal keep the order in which they came.
-/
set_option autoImplicit false

namespace Mathpad

/-! ## Sorting with a comparison that may fail -/

/-- Puts `x` into a list in descending order, before the first member that is not above it. -/
def insertBy {α : Type} (compare : α → α → Outcome Ordering) (x : α) : List α → Outcome (List α)
  | [] => .ok [x]
  | y :: ys => do
    if (← compare x y) = .lt then return y :: (← insertBy compare x ys)
    else return x :: y :: ys

/-- Sorts a list in ascending order; members that compare equal stay in place. Each member is put
into the sorted list of those before it, from the upper end. -/
def sortBy {α : Type} (compare : α → α → Outcome Ordering) (xs : List α) : Outcome (List α) := do
  return (← xs.foldlM (fun sorted x => insertBy compare x sorted) []).reverse

/-- Adds `x` to the list of runs if it compares equal to the first member of the last one, and
otherwise begins a new run. The last run comes first. -/
def addToRuns {α : Type} (compare : α → α → Outcome Ordering) (x : α) :
    List (List α) → Outcome (List (List α))
  | (first :: more) :: runs => do
    if (← compare first x) = .eq then return (first :: more ++ [x]) :: runs
    else return [x] :: (first :: more) :: runs
  | runs => .ok ([x] :: runs)

/-- Cuts a list into runs of members that compare equal to the first of their run. -/
def runsBy {α : Type} (compare : α → α → Outcome Ordering) (xs : List α) :
    Outcome (List (List α)) := do
  return (← xs.foldlM (fun runs x => addToRuns compare x runs) []).reverse

/-! ## The order of terms -/

namespace Term

/-- The place of a kind of term in the order. -/
def rank : Term → Nat
  | number _ => 1
  | var _ => 2
  | product _ => 3
  | power .. => 4
  | sum _ => 5
  | call .. => 6

mutual

/-- Compares two terms, first by their kinds and then part by part. -/
def order : Term → Term → Outcome Ordering
  | number x, number y => x.order y
  | var a, var b => .ok (compare a b)
  | product ts, product us => orderAll ts us
  | sum ts, sum us => orderAll ts us
  | power b e, power b' e' => do
    match ← order b b' with
    | .eq => order e e'
    | o => return o
  | call f ts, call g us =>
    match compare f.code g.code with
    | .eq => orderAll ts us
    | o => .ok o
  | t, u => .ok (compare t.rank u.rank)

/-- The order of lists: by the first members that differ, and then by length. -/
def orderAll : List Term → List Term → Outcome Ordering
  | [], [] => .ok .eq
  | [], _ :: _ => .ok .lt
  | _ :: _, [] => .ok .gt
  | t :: ts, u :: us => do
    match ← order t u with
    | .eq => orderAll ts us
    | o => return o

end

mutual

/-- Sorts the members of all sums and products. -/
def sort : Term → Outcome Term
  | number x => .ok (.number x)
  | var name => .ok (.var name)
  | product ts => do return .product (← sortBy order (← sortAll ts))
  | sum ts => do return .sum (← sortBy order (← sortAll ts))
  | power b e => do
    let base ← b.sort
    return .power base (← e.sort)
  | call f ts => do return .call f (← sortAll ts)

/-- Sorts each of some terms. -/
def sortAll : List Term → Outcome (List Term)
  | [] => .ok []
  | t :: ts => do
    let sorted ← t.sort
    return sorted :: (← sortAll ts)

end

end Term
end Mathpad
