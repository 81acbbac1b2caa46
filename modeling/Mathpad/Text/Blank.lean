import Mathpad.Text.Ranges

/-
Blank characters: the white space of Unicode and the four separators among the control characters.
-/
set_option autoImplicit false

namespace Mathpad.Text

/-- The boundaries of the ranges of blank characters. -/
def blankBounds : Array Nat := #[
  0x9, 0xe, 0x1c, 0x21, 0x85, 0x86, 0xa0, 0xa1, 0x1680, 0x1681, 0x2000, 0x200b, 0x2028, 0x202a,
  0x202f, 0x2030, 0x205f, 0x2060, 0x3000, 0x3001]

/-- Whether `c` only separates what stands around it. -/
def isBlank (c : Char) : Bool := inRanges blankBounds c.toNat

/-- `cs` without the blanks at its start. -/
def dropBlanks (cs : List Char) : List Char := cs.dropWhile isBlank

/-- `cs` without the characters at either end that `p` holds of. -/
def trim (p : Char → Bool) (cs : List Char) : List Char :=
  ((cs.dropWhile p).reverse.dropWhile p).reverse

/-- `cs` without the blanks at either end. -/
def trimBlanks (cs : List Char) : List Char := trim isBlank cs

end Mathpad.Text
