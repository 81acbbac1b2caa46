import Mathpad.Number.Basic

/-
Checked arithmetic: every operation has a result in range or says why it has none.

Two fractions are combined by cross multiplication in unbounded integers and brought to lowest terms
only then, so an overflow is reported exactly when the result itself does not fit. As soon as one
side is a decimal both are, and the exact decimal result is rounded once.

A power with a fractional exponent `n / d` is taken as the `d`-th root of the `n`-th power. The root
is exact when both parts of that power are `d`-th powers, and otherwise an approximation with the
sign of the radicand; a negative radicand has a real root only for an odd `d`.
-/
set_option autoImplicit false

namespace Mathpad.Number

-- Powers of natural numbers are those of the core library, also where those of monoids are in scope.
attribute [local instance (high)] instPowNat

/-! ## Sums, products and quotients -/

/-- The number with the other sign. -/
def neg : Number → Outcome Number
  | .ratio n d => simplify (.ratio (-n) d)
  | .decimal v a => .ok (.decimal (v.negate precision) a)

/-- Combines two numbers: fractions by one rule, anything else by a rule on decimals. -/
def combine (ratios : Int → Int → Int → Int → Number)
    (decimals : Decimal → Decimal → Outcome Decimal) : Number → Number → Outcome Number
  | .ratio a b, .ratio c d => simplify (ratios a b c d)
  | x, y => do
    let v ← x.toDecimal
    let w ← y.toDecimal
    return .decimal (← decimals v w) (x.accuracy.combine y.accuracy)

/-- The sum of two numbers. -/
def add : Number → Number → Outcome Number :=
  combine (fun a b c d => .ratio (a * d + c * b) (b * d))
    (fun v w => ((v.add w).round precision).fit)

/-- The difference of two numbers: the sum with the opposite. -/
def sub (x y : Number) : Outcome Number := do x.add (← y.neg)

/-- The product of two numbers. -/
def mul : Number → Number → Outcome Number :=
  combine (fun a b c d => .ratio (a * c) (b * d))
    (fun v w => ((v.mul w).round precision).fit)

/-- The quotient of two numbers, unless the second one is zero. -/
def div (x y : Number) : Outcome Number :=
  if y.isZero then failMaths .divisionByZero
  else combine (fun a b c d => .ratio (a * d) (b * c)) Decimal.quotient x y

/-- The inverse of a number. -/
def reciprocal (x : Number) : Outcome Number := one.div x

/-! ## Whole powers -/

/-- `b ^ n` for an `n` above zero. Zero, one and minus one are told apart first, so that an exponent
of any size costs nothing there. -/
def intPow (b : Int) (n : Nat) : Int :=
  if b.natAbs ≤ 1 then (if n % 2 = 0 then b * b else b) else b ^ n

/-- Whether `part ^ n` is certain to leave the 64-bit range, judged from the length of `part`. -/
def powOverflows (part : Int) (n : Nat) : Bool :=
  1 < part.natAbs && 63 < part.natAbs.log2 * n

/-- The `n`-th power for an `n` above zero. -/
def powNat (x : Number) (n : Nat) : Outcome Number :=
  match x with
  | .ratio p q =>
    if powOverflows p n || powOverflows q n then failMaths .overflow
    else simplify (.ratio (intPow p n) (intPow q n))
  | .decimal v a => do return .decimal (← v.power (Decimal.ofNat n)) a

/-- The power with a whole exponent. The zeroth power is one, also of zero. -/
def powInt (x : Number) (e : Int) : Outcome Number :=
  if e < 0 then
    if x.isZero then failMaths .divisionByZero
    else do (← x.reciprocal).powNat e.natAbs
  else if e = 0 then
    match x with
    | .decimal _ a => .ok (.decimal Decimal.one a)
    | .ratio .. => .ok one
  else x.powNat e.toNat

/-! ## Roots and other powers -/

/-- `base ^ exponent` for decimals whose power is an approximation anyway. -/
def approximatePower (base exponent : Decimal) : Outcome Decimal :=
  if base.digits = 0 then
    if exponent.isBelowZero then failMaths .divisionByZero else .ok Decimal.zero
  else base.power exponent

/-- The root of a fraction when it is a fraction. -/
def exactRoot? (degree : Nat) : Number → Option Number
  | .ratio n d =>
    match Mathpad.exactRoot? degree n.natAbs, Mathpad.exactRoot? degree d.natAbs with
    | some r, some s => some (.ratio (if isNegative (.ratio n d) then -(r : Int) else r) s)
    | _, _ => none
  | .decimal .. => none

/-- The root of a given degree, two or more. -/
def root (x : Number) (degree : Nat) : Outcome Number :=
  if x.isNegative ∧ degree % 2 = 0 then failMaths .imaginary
  else
    match x.exactRoot? degree with
    | some r => .ok r
    | none => do
      let base ← x.toDecimal
      let size ← approximatePower (base.magnitude precision)
        (Decimal.one.div precision (Decimal.ofNat degree))
      return .decimal (if x.isNegative then size.negate precision else size) .approximate

/-- The power with any exponent. -/
def pow (x e : Number) : Outcome Number := do
  match ← e.whole? with
  | some n => x.powInt n
  | none =>
    match ← e.simplify with
    | .ratio n d => (← x.powInt n).root d.toNat
    | .decimal v _ =>
      if x.isNegative then failMaths .imaginary
      else return .decimal (← approximatePower (← x.toDecimal) v) .approximate

/-- The square root as a decimal. It is tagged exact only when squaring it gives the number back. -/
def sqrt (x : Number) : Outcome Number :=
  if x.isNegative then failMaths .invalidSqrt
  else
    match x with
    | .ratio .. => do
      match ← x.simplify with
      | .ratio n d =>
        match Mathpad.exactRoot? 2 n.natAbs, Mathpad.exactRoot? 2 d.natAbs with
        | some r, some s =>
          let root ← (Decimal.ofNat r).quotient (Decimal.ofNat s)
          let back ← ((root.mul (Decimal.ofNat s)).round precision).fit
          return .decimal root (if back.sameValue (Decimal.ofNat r) then .exact else .approximate)
        | _, _ =>
          let v ← x.toDecimal
          return .decimal (← (v.sqrt precision).fit) .approximate
      | y => return y
    | .decimal v a => do
      let root ← (v.sqrt precision).fit
      let square ← ((root.mul root).round precision).fit
      return .decimal root (if square.sameValue v then a else .approximate)

end Mathpad.Number
