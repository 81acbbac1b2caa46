import Mathpad.Fault
import Mathpad.Decimal.Power
import Mathpad.Decimal.Text

/-
Numbers: fractions of two 64-bit integers, and decimals that say whether they are exact.

Arithmetic stays among fractions for as long as it can, because there it is exact. A decimal enters
with a point in the input, with a literal too large for a fraction, or with an operation that has no
rational result; then the result also carries a tag, and an approximation anywhere makes everything
computed from it an approximation.

A decimal that belongs here has at most twenty-eight places and stays below `2 ^ 96`. `Number.fit`
brings a computed decimal into that range or finds that it does not belong.
-/
set_option autoImplicit false

namespace Mathpad

-- Powers of natural numbers are those of the core library, also where those of monoids are in scope.
attribute [local instance (high)] instPowNat

/-- Significant digits of decimal arithmetic. -/
def precision : Nat := 28

/-- Places that a decimal may have. -/
def maxPlaces : Nat := 28

/-- The largest magnitude of a decimal. -/
def maxMagnitude : Nat := 2 ^ (96 : Nat) - 1

/-- The largest 64-bit integer; the least is one further from zero. -/
def maxWord : Int := 2 ^ (63 : Nat) - 1

/-- Whether `n` is a signed 64-bit integer. -/
def isWord (n : Int) : Bool := -maxWord - 1 ≤ n && n ≤ maxWord

/-- Whether a decimal may carry the error of an earlier approximation. -/
inductive Accuracy where
  | exact
  | approximate
  deriving DecidableEq, Repr

/-- The accuracy of what is computed from two numbers. -/
def Accuracy.combine : Accuracy → Accuracy → Accuracy
  | .exact, .exact => .exact
  | _, _ => .approximate

/-- A fraction as it was built, which need not be in lowest terms, or a decimal with its accuracy. -/
inductive Number where
  | ratio (num den : Int)
  | decimal (value : Decimal) (accuracy : Accuracy)
  deriving DecidableEq, Repr

/-! ## Fitting a decimal into the range -/

/-- Why a decimal has no place among the numbers. -/
inductive Misfit where
  | tooLarge
  | tooManyDigits
  deriving DecidableEq, Repr

namespace Decimal

/-- `d` with at most `maxPlaces` places, if its magnitude is in range. Rounding to that many places
must leave no more digits than the precision has. -/
def fit? (d : Decimal) : Except Misfit Decimal :=
  let placed := if d.exponent < -maxPlaces then d.atPlaces maxPlaces else d
  if d.exponent < -maxPlaces ∧ precision < digitCount placed.digits then .error .tooManyDigits
  else if (ofNat maxMagnitude).lt (placed.magnitude precision) then .error .tooLarge
  else .ok placed

/-- The result of an operation, which overflows when it does not fit. -/
def fit (d : Decimal) : Outcome Decimal :=
  match d.fit? with
  | .ok r => .ok r
  | .error _ => failMaths .overflow

/-- `a / b` within the precision and the range. Zero by zero has no value, which counts as an
overflow. -/
def quotient (a b : Decimal) : Outcome Decimal :=
  if b.digits = 0 then failMaths (if a.digits = 0 then .overflow else .divisionByZero)
  else (a.div precision b).fit

/-- `base ^ exponent` within the precision and the range. -/
def power (base exponent : Decimal) : Outcome Decimal :=
  match base.pow precision exponent with
  | .value d => d.fit
  | .vanishing negative => (⟨negative, 0, -maxPlaces⟩ : Decimal).fit
  | .huge | .undefined => failMaths .overflow

end Decimal

namespace Number

/-! ## Constructors -/

/-- The fraction zero. -/
def zero : Number := .ratio 0 1

/-- The fraction one. -/
def one : Number := .ratio 1 1

/-- The fraction minus one. -/
def minusOne : Number := .ratio (-1) 1

/-- A 64-bit integer, or an overflow. -/
def word (n : Int) : Outcome Int := if isWord n then .ok n else failMaths .overflow

/-- The whole number `n`. -/
def ofInt (n : Int) : Outcome Number := do return .ratio (← word n) 1

/-- A decimal given from outside. One that is too large overflows; one that would lose digits beyond
the precision is no valid decimal. -/
def ofDecimal (d : Decimal) (accuracy : Accuracy) : Outcome Number :=
  match d.fit? with
  | .ok r => .ok (.decimal r accuracy)
  | .error .tooLarge => failMaths .overflow
  | .error .tooManyDigits => .error (.mishap .invalidDecimal)

/-- The decimal that a text spells. -/
def ofText (s : String) (accuracy : Accuracy) : Outcome Number :=
  match Decimal.read? s with
  | some (.finite d) => ofDecimal d accuracy
  | some _ => failMaths .overflow
  | none => .error (.mishap .invalidDecimal)

/-! ## Views -/

/-- The accuracy of a number; a fraction is exact. -/
def accuracy : Number → Accuracy
  | .ratio .. => .exact
  | .decimal _ a => a

/-- The value as a decimal within the precision. -/
def toDecimal : Number → Outcome Decimal
  | .ratio n d => (Decimal.ofInt n).quotient (Decimal.ofInt d)
  | .decimal v _ => .ok v

/-- A fraction in lowest terms with the sign on top; a decimal as it is. -/
def simplify : Number → Outcome Number
  | .ratio n d => do
    let n' := if d < 0 then -n else n
    let d' := if d < 0 then -d else d
    let g : Int := max 1 (Int.gcd n' d')
    return .ratio (← word (n' / g)) (← word (d' / g))
  | x => .ok x

/-- The 64-bit integer that the number equals, if there is one. -/
def whole? : Number → Outcome (Option Int)
  | .ratio n d =>
    if d = 0 then .error (.mishap .zeroDenominator)
    else .ok (if n % d = 0 then some (n / d) else none)
  | .decimal v _ =>
    match v.whole? with
    | some n => .ok (if isWord n then some n else none)
    | none => .ok none

/-- Whether a number is zero, of either form. -/
def isZero : Number → Bool
  | .ratio n _ => n == 0
  | .decimal v _ => v.isZero

/-- Whether a number is one, of either form. -/
def isOne : Number → Bool
  | .ratio n d => n == d
  | .decimal v _ => v.sameValue Decimal.one

/-- Whether a number is below zero. -/
def isNegative : Number → Bool
  | .ratio n d => (decide (n < 0) != decide (d < 0)) && n != 0
  | .decimal v _ => v.isBelowZero

/-- How the values of two numbers compare, both seen as decimals. -/
def order (a b : Number) : Outcome Ordering := do
  return (← a.toDecimal).order (← b.toDecimal)

/-- Whether two numbers are of one kind with equal parts. Decimals have equal parts when their values
and tags agree. -/
def same : Number → Number → Bool
  | .ratio a b, .ratio c d => a == c && b == d
  | .decimal v a, .decimal w b => v.sameValue w && a == b
  | _, _ => false

/-- The number as text: a fraction with a stroke unless its denominator is one, a decimal in plain
notation. -/
def text : Number → String
  | .ratio n d => if d = 1 then toString n else s!"{n}/{d}"
  | .decimal v _ => String.ofList v.plain

end Number
end Mathpad
