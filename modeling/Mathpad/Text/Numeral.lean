import Mathpad.Binary64.Text

/-
Numerals given as arguments.

A numeral may have blanks around it, though not the separators among the control characters, a sign,
and digits of any script; a single low line may stand between two digits to group them. A
floating-point numeral may also have a point and an exponent, or be the name of an infinity or of no
number at all.
-/
set_option autoImplicit false

namespace Mathpad.Text

/-- `cs` without the low lines that group its digits; none if one of them does not stand between two
digits. The character before `cs` is `previous`. -/
def ungroup? (previous : Char) : List Char → Option (List Char)
  | [] => if previous = '_' then none else some []
  | c :: cs =>
    if c = '_' then
      if previous.isDigit then ungroup? c cs else none
    else if previous = '_' && !c.isDigit then none
    else (ungroup? c cs).map (c :: ·)

/-- Whether `c` may stand around a numeral. -/
def surroundsNumeral (c : Char) : Bool := isBlank c && !(0x1c ≤ c.toNat && c.toNat ≤ 0x1f)

/-- The characters of a numeral with ASCII digits, without blanks around it and groups in it. -/
def numeral? (s : String) : Option (List Char) :=
  ungroup? ' ' ((trim surroundsNumeral s.toList).map asciiDigit)

/-- No whole number may be written with more digits. -/
def maxWholeDigits : Nat := 4300

/-- The whole number that a text spells. -/
def whole? (s : String) : Option Int := do
  let (negative, ds) := Decimal.takeSign (← numeral? s)
  if ds.isEmpty || !ds.all Char.isDigit || maxWholeDigits < ds.length then none
  else
    let n : Int := Decimal.digitsValue ds
    return if negative then -n else n

/-- The magnitude that an unsigned floating-point numeral spells: a decimal or a name, in letters of
either case. -/
def magnitude? (cs : List Char) : Option Float :=
  let name := cs.map Char.toLower
  if name = "inf".toList ∨ name = "infinity".toList then some (1 / 0)
  else if name = "nan".toList then some (0 / 0)
  else (Decimal.unsigned? cs).map Binary64.ofDecimal

/-- The double nearest to what a text spells. -/
def double? (s : String) : Option Float := do
  let (negative, body) := Decimal.takeSign (← numeral? s)
  let x ← magnitude? body
  return if negative then -x else x

end Mathpad.Text
