import Mathpad.Decimal.Series

/-
Powers of decimals, rounded to a given precision.

A whole exponent is applied by repeated squaring, with a few working digits more than the exponent
has digits, so that the error of all the products stays below the last digit kept. Any other
exponent goes through the logarithm: `b ^ e = exp (e · ln b)`. A base of one never needs either, but
its power still has a shape: `1.0 ^ 3` is `1.000`, because each factor brings its places.

A power can be far outside anything representable. Such a power is not computed; what comes back
says on which side it fell.
-/
set_option autoImplicit false

namespace Mathpad.Decimal

-- Powers of natural numbers are those of the core library, also where those of monoids are in scope.
attribute [local instance (high)] instPowNat

/-- A power, or the side on which it leaves every range of interest. -/
inductive Power where
  | value (d : Decimal)
  | huge
  | vanishing (negative : Bool)
  | undefined
  deriving DecidableEq, Repr

/-! ## Whole exponents -/

/-- The whole number `d` is, if it is one. -/
def whole? (d : Decimal) : Option Int :=
  match d.wholePart with
  | (n, false) => some (if d.negative then -(n : Int) else n)
  | (_, true) => none

/-- `result · base ^ bits`, the bits given from the top: each one squares what is there, and a set bit
multiplies by the base once more. -/
def powBits (p : Nat) (base : Decimal) : List Bool → Decimal → Decimal
  | [], r => r
  | bit :: bits, r =>
    let square := (r.mul r).round p
    powBits p base bits (if bit then (square.mul base).round p else square)

/-- The binary digits of `n` below its leading one, from the top. -/
def lowerBits (n : Nat) : List Bool :=
  if n ≤ 1 then [] else lowerBits (n / 2) ++ [n % 2 == 1]

/-- `acc · base ^ n`, taking the bits of `n` from the bottom and squaring the base in between. -/
def powSquares (p : Nat) (acc base : Decimal) (n : Nat) : Decimal :=
  if h : n = 0 then acc
  else
    powSquares p (if n % 2 = 1 then (acc.mul base).round p else acc) ((base.mul base).round p) (n / 2)
termination_by n
decreasing_by omega

/-- Exponents up to this one are applied from their leading bit, larger ones from their last. -/
def topDownLimit : Nat := 2 ^ (64 : Nat) - 1

/-- `base ^ n` for a whole `n` above zero, the products being rounded to `p` digits. -/
def powNat (p : Nat) (base : Decimal) (n : Nat) : Decimal :=
  if n ≤ topDownLimit then powBits p base (lowerBits n) base else powSquares p one base n

/-! ## The power of one -/

/-- The power of a base of magnitude one. Its places multiply with a whole exponent, as long as there
are digits for them; any other exponent fills all `p` digits. -/
def powOne (p : Nat) (base : Decimal) (exponent : Decimal) (negative : Bool) : Decimal :=
  let places : Nat :=
    match exponent.whole? with
    | some n => if n < 0 then 0 else min (n.toNat * (-base.exponent).toNat) (p - 1)
    | none => p - 1
  ⟨negative, 10 ^ places, -(places : Int)⟩

/-! ## Any exponent -/

/-- The sign of the natural logarithm of `base ^ exponent` when the power is out of all bounds: when the
logarithm has five digits or more before the point. -/
def outOfBounds (base exponent : Decimal) : Option Bool :=
  let log := ((base.ln 10).mul exponent).round 10
  if log.leadingExponent ≥ 4 ∧ log.digits ≠ 0 then some log.negative else none

/-- `base ^ exponent` to `p` digits. -/
def pow (p : Nat) (base exponent : Decimal) : Power :=
  let odd := match exponent.whole? with
    | some n => n % 2 = 1
    | none => false
  let negative := base.negative && odd
  if base.digits = 0 then
    if exponent.digits = 0 then .undefined
    else if exponent.negative then .huge
    else .value ⟨negative, 0, 0⟩
  else if base.negative ∧ exponent.whole?.isNone then .undefined
  else if exponent.digits = 0 then .value ⟨negative, 1, 0⟩
  else if ({ base with negative := false } : Decimal).sameValue one then
    .value (powOne p base exponent negative)
  else
    match outOfBounds { base with negative := false } exponent with
    | some true => .vanishing negative
    | some false => .huge
    | none =>
      match exponent.whole? with
      | some n =>
        let work := (p : Int) + digitCount exponent.digits + exponent.exponent + 2
        let unsigned : Decimal := { base with negative := false }
        let r :=
          if n < 0 then
            let inverse := one.div (work.toNat + 1) unsigned
            powNat (work.toNat + 1) inverse n.natAbs
          else powNat work.toNat unsigned n.natAbs
        .value ({ r with negative := negative }.round p)
      | none =>
        let work := max (digitCount base.digits) p + 23
        let r := exp work (((base.ln work).mul exponent).round work)
        if r.sameValue one then .value ⟨false, 10 ^ (p - 1), -((p : Int) - 1)⟩
        else .value (r.round p)

end Mathpad.Decimal
