import Mathpad.Binary64.Shortest
import Mathpad.Decimal.Text

/-
Doubles and decimals, and doubles as text.

The text of a double is the shortest that reads back. From `10 ^ 16` on and below `10 ^ (-4)` it has an
exponent of at least two digits, otherwise it is positional with at least one place.
-/
set_option autoImplicit false

namespace Mathpad

-- Powers of natural numbers are those of the core library, also where those of monoids are in scope.
attribute [local instance (high)] instPowNat

/-- The limits of positional notation: a leading digit of exponent `positionalFrom` up to below
`positionalTo` is written without an exponent. -/
def positionalFrom : Int := -4

/-- Below ten to this power a double is written with all its digits in front of the point. -/
def positionalTo : Int := 16

namespace Binary64

open Decimal (digitsOf)

/-- The text of the magnitude with the given coefficient and exponent. -/
def magnitudeText (c : Nat) (t : Int) : List Char :=
  let ds := digitsOf c
  let leading := t + ds.length - 1
  if positionalFrom ≤ leading ∧ leading < positionalTo then
    let (whole, places) := (⟨false, c, t⟩ : Decimal).splitAtPoint
    whole ++ '.' :: (if places.isEmpty then ['0'] else places)
  else
    let size := digitsOf leading.natAbs
    let padded := if size.length < 2 then '0' :: size else size
    ds.take 1 ++ (if ds.length = 1 then [] else '.' :: ds.drop 1) ++
      'e' :: (if leading < 0 then '-' else '+') :: padded

/-- The text of a double. -/
def text (x : Float) : String :=
  if x.isNaN then "nan"
  else if x.isInf then (if x < 0 then "-inf" else "inf")
  else
    let (c, t) := shortest x
    let body := magnitudeText c t
    String.ofList (if isNegative x then '-' :: body else body)

/-- The decimal that the text of a finite double spells. -/
def toDecimal (x : Float) : Decimal :=
  let (c, t) := shortest x
  let d : Decimal :=
    if c = 0 then ⟨false, 0, -1⟩
    else if 0 ≤ t ∧ t + Decimal.digitCount c ≤ positionalTo then ⟨false, c * 10 ^ (t.toNat + 1), -1⟩
    else ⟨false, c, t⟩
  { d with negative := isNegative x }

/-- The double nearest to a decimal. -/
def ofDecimal (d : Decimal) : Float :=
  let x := Float.ofScientific d.digits (decide (d.exponent < 0)) d.exponent.natAbs
  if d.negative then -x else x

end Binary64
end Mathpad
