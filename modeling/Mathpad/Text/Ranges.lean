/-
Sets of characters given by the places where membership changes.

A property of characters that a standard lists as ranges is kept as the ascending list of its
boundaries: the first code in the set, the first one after it that is not, and so on. A character
belongs to the set exactly when an odd number of boundaries lie at or below its code, so a binary
search for its place answers the question.
-/
set_option autoImplicit false

namespace Mathpad.Text

/-- The number of entries of `bounds` at or below `code`, looked for between `lo` and `hi`; the
entries are ascending. -/
def countAtMost (bounds : Array Nat) (code lo hi : Nat) : Nat :=
  if lo < hi then
    let mid := (lo + hi) / 2
    if bounds.getD mid 0 ≤ code then countAtMost bounds code (mid + 1) hi
    else countAtMost bounds code lo mid
  else lo
termination_by hi - lo
decreasing_by all_goals omega

/-- Whether `code` lies in the set with these ascending boundaries. -/
def inRanges (bounds : Array Nat) (code : Nat) : Bool :=
  countAtMost bounds code 0 bounds.size % 2 == 1

end Mathpad.Text
