import Mathpad.Decimal.Basic

/-
The four operations on decimals.

Sums, differences and products of decimals are decimals, so `add`, `sub` and `mul` are exact and
say nothing about precision; a caller that works with `p` digits rounds the result. A quotient is a
decimal only by luck, so `div` takes the precision. It divides once, with enough extra digits that
the remainder can only matter as "something was left over", and marks a remainder in the last digit
so that the final rounding cannot mistake an inexact quotient for a half.
-/
set_option autoImplicit false

namespace Mathpad.Decimal

-- Powers of natural numbers are those of the core library, also where those of monoids are in scope.
attribute [local instance (high)] instPowNat

/-! ## Exact operations -/

/-- The same magnitude with the other sign, exactly. -/
def flip (d : Decimal) : Decimal := { d with negative := !d.negative }

/-- The exact sum, at the smaller of the two exponents. A sum that cancels to nothing is a positive
zero; only two negative zeros add up to a negative one. -/
def add (a b : Decimal) : Decimal :=
  let e := min a.exponent b.exponent
  let total := a.units e + b.units e
  let sign := if total = 0 then a.negative && b.negative && a.isZero && b.isZero else total < 0
  ⟨sign, total.natAbs, e⟩

/-- The exact difference. -/
def sub (a b : Decimal) : Decimal := a.add b.flip

/-- The exact product. -/
def mul (a b : Decimal) : Decimal :=
  ⟨a.negative != b.negative, a.digits * b.digits, a.exponent + b.exponent⟩

/-- The magnitude rounded to `p` digits; the magnitude of a negative zero is a positive one. -/
def magnitude (p : Nat) (d : Decimal) : Decimal := { d with negative := false }.round p

/-- Minus `d`, rounded to `p` digits. As in `0 - d`, no zero comes out negative. -/
def negate (p : Nat) (d : Decimal) : Decimal :=
  if d.digits = 0 then { d with negative := false } else d.flip.round p

/-! ## Division -/

/-- `n` divided by ten for as long as it is divisible, at most `k` times; the second part is the
number of divisions. -/
def stripZeros (n : Nat) : Nat → Nat × Nat
  | 0 => (n, 0)
  | k + 1 =>
    if n % 10 = 0 then
      let (m, done) := stripZeros (n / 10) k
      (m, done + 1)
    else (n, 0)

/-- A quotient whose remainder was thrown away, marked so that it is neither a whole number of tens
nor half of one. -/
def markInexact (q : Nat) : Nat := if q % 5 = 0 then q + 1 else q

/-- `a / b` to `p` digits, for a `b` other than zero. An exact quotient is written with the
difference of the two exponents when its digits allow, else with as few places as they need. -/
def div (p : Nat) (a b : Decimal) : Decimal :=
  let sign := a.negative != b.negative
  let ideal := a.exponent - b.exponent
  if a.digits = 0 then ⟨sign, 0, ideal⟩
  else
    let shift : Int := digitCount b.digits - digitCount a.digits + p + 1
    let n := a.digits * 10 ^ shift.toNat
    let d := b.digits * 10 ^ (-shift).toNat
    if n % d = 0 then
      let (q, stripped) := stripZeros (n / d) shift.toNat
      (⟨sign, q, ideal - shift + stripped⟩ : Decimal).round p
    else (⟨sign, markInexact (n / d), ideal - shift⟩ : Decimal).round p

end Mathpad.Decimal
