/-
Decimal numbers in scientific form: a sign, a whole coefficient and a power of ten.

The form is not normalised on purpose. `1.5` and `1.50` are different decimals of the same value,
because the number of places is what a reader sees when the number is drawn. Equality of the
structure is therefore finer than equality of value, and every comparison by value goes through
`units`, the whole number a decimal is when it is measured in a power of ten small enough for both
sides.

Rounding is to a number of significant digits, and a half goes to the even neighbour. It is the
only place where information is lost: sums and products (in `Decimal.Arithmetic`) are exact until
they are rounded.
-/
set_option autoImplicit false

namespace Mathpad

-- Powers of natural numbers are those of the core library, also where those of monoids are in scope.
attribute [local instance (high)] instPowNat

/-- The value `± digits · 10 ^ exponent`. A zero keeps its sign and its exponent. -/
structure Decimal where
  negative : Bool
  digits : Nat
  exponent : Int
  deriving DecidableEq, Repr

namespace Decimal

/-! ## Counting and dropping digits -/

/-- How many decimal digits `n` is written with; zero is written with one. -/
def digitCount (n : Nat) : Nat :=
  if n < 10 then 1 else digitCount (n / 10) + 1

/-- `n / d` rounded to a whole number, a half going to the even neighbour. -/
def divRound (n d : Nat) : Nat :=
  if d < 2 * (n % d) ∨ 2 * (n % d) = d ∧ (n / d) % 2 = 1 then n / d + 1 else n / d

/-- A coefficient with its lowest `k` digits rounded away. With more digits to drop than there are,
what is left is below a tenth and the power of ten is never computed. -/
def dropDigits (n k : Nat) : Nat := if digitCount n < k then 0 else divRound n (10 ^ k)

/-! ## Constants and signs -/

/-- The whole number `n` as a decimal with no places. -/
def ofInt (n : Int) : Decimal := ⟨n < 0, n.natAbs, 0⟩

/-- The whole number `n` as a decimal with no places. -/
def ofNat (n : Nat) : Decimal := ⟨false, n, 0⟩

/-- The decimal zero, without places. -/
def zero : Decimal := ofNat 0

/-- The decimal one, without places. -/
def one : Decimal := ofNat 1

/-- Whether the coefficient is zero, whatever the sign and the exponent. -/
def isZero (d : Decimal) : Bool := d.digits == 0

/-- Whether `d` lies below zero; a negative zero does not. -/
def isBelowZero (d : Decimal) : Bool := d.negative && d.digits != 0

/-- The coefficient with its sign. -/
def signedDigits (d : Decimal) : Int := if d.negative then -(d.digits : Int) else d.digits

/-- The exponent of the leading digit. -/
def leadingExponent (d : Decimal) : Int := d.exponent + digitCount d.digits - 1

/-! ## Comparison by value -/

/-- `d` measured in units of `10 ^ e`, exact when `e` is at most the exponent of `d`. -/
def units (d : Decimal) (e : Int) : Int := d.signedDigits * 10 ^ (d.exponent - e).toNat

/-- How the values of two decimals compare, both being measured in the finer of their two units. -/
def order (a b : Decimal) : Ordering :=
  compare (a.units (min a.exponent b.exponent)) (b.units (min a.exponent b.exponent))

/-- The value of `a` is below that of `b`. -/
def lt (a b : Decimal) : Bool := a.order b == .lt

/-- The two decimals have one value. -/
def sameValue (a b : Decimal) : Bool := a.order b == .eq

/-! ## Rounding -/

/-- `d` with at most `p` significant digits. A carry out of the leading digit moves into the
exponent, so that the coefficient stays below `10 ^ p`. -/
def round (p : Nat) (d : Decimal) : Decimal :=
  let excess := digitCount d.digits - p
  if excess = 0 then d
  else
    let kept := dropDigits d.digits excess
    if kept = 10 ^ p then ⟨d.negative, 10 ^ (p - 1), d.exponent + excess + 1⟩
    else ⟨d.negative, kept, d.exponent + excess⟩

/-- The multiple of `10 ^ (-places)` nearest to `d`, written with exactly that many places. -/
def atPlaces (places : Nat) (d : Decimal) : Decimal :=
  let shift := d.exponent + places
  if 0 ≤ shift then ⟨d.negative, d.digits * 10 ^ shift.toNat, -places⟩
  else ⟨d.negative, dropDigits d.digits (-shift).toNat, -places⟩

/-- A decimal of few digits is rounded to itself. -/
theorem round_of_digitCount_le {p : Nat} {d : Decimal} (h : digitCount d.digits ≤ p) :
    d.round p = d := by
  simp [round, Nat.sub_eq_zero_of_le h]

/-- The whole part of the magnitude, and whether anything was cut off. -/
def wholePart (d : Decimal) : Nat × Bool :=
  if 0 ≤ d.exponent then (d.digits * 10 ^ d.exponent.toNat, false)
  else
    let unit := 10 ^ (-d.exponent).toNat
    (d.digits / unit, d.digits % unit != 0)

end Decimal
end Mathpad
