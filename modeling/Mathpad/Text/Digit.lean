import Mathpad.Text.Blank

/-
Decimal digits of every script.

Each script that writes decimal numbers has its ten digits in a row in Unicode, so a table of the
zeros is enough. A number that is given as an argument may be written with any of them; text that is
an expression may not, and does not come here.
-/
set_option autoImplicit false

namespace Mathpad.Text

/-- The codes of the digit zero of every script, ascending. -/
def zeroCodes : Array Nat := #[
  0x30, 0x660, 0x6f0, 0x7c0, 0x966, 0x9e6, 0xa66, 0xae6, 0xb66, 0xbe6, 0xc66, 0xce6, 0xd66, 0xde6,
  0xe50, 0xed0, 0xf20, 0x1040, 0x1090, 0x17e0, 0x1810, 0x1946, 0x19d0, 0x1a80, 0x1a90, 0x1b50,
  0x1bb0, 0x1c40, 0x1c50, 0xa620, 0xa8d0, 0xa900, 0xa9d0, 0xa9f0, 0xaa50, 0xabf0, 0xff10, 0x104a0,
  0x10d30, 0x11066, 0x110f0, 0x11136, 0x111d0, 0x112f0, 0x11450, 0x114d0, 0x11650, 0x116c0,
  0x11730, 0x118e0, 0x11950, 0x11c50, 0x11d50, 0x11da0, 0x16a60, 0x16ac0, 0x16b50, 0x1d7ce,
  0x1d7d8, 0x1d7e2, 0x1d7ec, 0x1d7f6, 0x1e140, 0x1e2f0, 0x1e950, 0x1fbf0]

/-- The value of `c` when it is a decimal digit of some script. -/
def digitValue? (c : Char) : Option Nat :=
  let place := countAtMost zeroCodes c.toNat 0 zeroCodes.size
  if place = 0 then none
  else
    let value := c.toNat - zeroCodes.getD (place - 1) 0
    if value < 10 then some value else none

/-- `c` with a digit of any script replaced by the ASCII one of the same value. -/
def asciiDigit (c : Char) : Char :=
  match digitValue? c with
  | some v => Char.ofNat (v + 48)
  | none => c

end Mathpad.Text
