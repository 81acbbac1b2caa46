import Mathpad.Decimal.Arithmetic
import Mathpad.Text.Digit

/-
Decimals as text.

In positional notation a decimal with places has a point, at least one digit before it and exactly
as many digits behind it as it has places. The plain form drops the zeros at the end of those and
then a point with nothing behind it, so that it depends on the value alone.

A decimal is read from a sign, digits with at most one point, and a power of ten behind the letter
`e`. Infinities and values that are no numbers have names; they are recognised so that they can be
told from nonsense.
-/
set_option autoImplicit false

namespace Mathpad.Decimal

/-! ## Writing -/

/-- The digits of `n`, the leading one first. -/
def digitsOf (n : Nat) : List Char := Nat.toDigits 10 n

/-- The digits before and behind the point, without the sign. There is at least one before it. -/
def splitAtPoint (d : Decimal) : List Char × List Char :=
  if 0 ≤ d.exponent then
    (if d.digits = 0 then ['0'] else digitsOf d.digits ++ List.replicate d.exponent.toNat '0', [])
  else
    let places := (-d.exponent).toNat
    let ds := digitsOf d.digits
    let padded := List.replicate (places + 1 - ds.length) '0' ++ ds
    padded.splitAt (padded.length - places)

/-- Positional notation with all places. -/
def positional (d : Decimal) : List Char :=
  let (whole, places) := d.splitAtPoint
  let body := if places.isEmpty then whole else whole ++ '.' :: places
  if d.negative then '-' :: body else body

/-- `cs` without the copies of `c` at its end. -/
def dropTrailing (c : Char) (cs : List Char) : List Char :=
  (cs.reverse.dropWhile (· == c)).reverse

/-- Positional notation without zeros at the end of the places. No zero has a sign. -/
def plain (d : Decimal) : List Char :=
  let (whole, places) := d.splitAtPoint
  let kept := dropTrailing '0' places
  let body := if kept.isEmpty then whole else whole ++ '.' :: kept
  if d.negative && d.digits != 0 then '-' :: body else body

/-! ## Reading -/

/-- What a text that is meant as a decimal says. -/
inductive Reading where
  | finite (d : Decimal)
  | infinite
  | notANumber
  deriving DecidableEq, Repr

/-- The value of a row of decimal digits. -/
def digitsValue (cs : List Char) : Nat :=
  cs.foldl (fun n c => n * 10 + (c.toNat - 48)) 0

/-- Splits off a sign; the flag is set for a minus. -/
def takeSign : List Char → Bool × List Char
  | '-' :: cs => (true, cs)
  | '+' :: cs => (false, cs)
  | cs => (false, cs)

/-- The exponent that the rest of a number spells: nothing, or `e` and a whole number. -/
def exponent? : List Char → Option Int
  | [] => some 0
  | e :: cs =>
    let (negative, ds) := takeSign cs
    if (e = 'e' ∨ e = 'E') ∧ ds ≠ [] ∧ ds.all Char.isDigit then
      some (if negative then -(digitsValue ds : Int) else digitsValue ds)
    else none

/-- The unsigned decimal that `cs` spells: digits with at most one point, at least one digit, and
perhaps an exponent. -/
def unsigned? (cs : List Char) : Option Decimal := do
  let whole := cs.takeWhile Char.isDigit
  let rest := cs.dropWhile Char.isDigit
  let (places, rest) := match rest with
    | '.' :: r => (r.takeWhile Char.isDigit, r.dropWhile Char.isDigit)
    | r => ([], r)
  if whole.isEmpty && places.isEmpty then none
  else
    let e ← exponent? rest
    some ⟨false, digitsValue (whole ++ places), e - places.length⟩

/-- The largest leading exponent of what is still taken for a number. -/
def readableExponent : Int := 999999999999999999

/-- Whether `d` is taken for a number: its last digit is above `10 ^ (-2 * readableExponent)` and its
leading digit at most at `10 ^ readableExponent`. A zero has no leading digit, so its exponent stands
for it. -/
def isReadable (d : Decimal) : Bool :=
  -2 * readableExponent < d.exponent &&
    (if d.digits = 0 then d.exponent ≤ readableExponent else d.leadingExponent ≤ readableExponent)

/-- Reads a decimal. Blanks at the ends and underscores anywhere are ignored, and the digits of any
script are digits. -/
def read? (s : String) : Option Reading :=
  let cs := ((Text.trimBlanks s.toList).filter (· ≠ '_')).map Text.asciiDigit
  let (negative, body) := takeSign cs
  let name := body.map Char.toLower
  if name = "inf".toList ∨ name = "infinity".toList then some .infinite
  else if "nan".toList.isPrefixOf name ∧ (name.drop 3).all Char.isDigit then some .notANumber
  else if "snan".toList.isPrefixOf name ∧ (name.drop 4).all Char.isDigit then some .notANumber
  else
    match unsigned? body with
    | some d => if d.isReadable then some (.finite { d with negative := negative }) else none
    | none => none

end Mathpad.Decimal
