import Mathpad.Number.Noise
import Mathpad.Binary64.Text

/-
The functions that an expression can call by name.

Sine and cosine are approximations, also where their value happens to be rational, and are cleared of
noise before they are used any further. They can be computed to full precision or, faster, in binary
floating point. The greatest common divisor is exact and belongs to whole numbers; of anything else
it is one.
-/
set_option autoImplicit false

namespace Mathpad

/-- The unit in which angles are given. -/
inductive AngleUnit where
  | degree
  | radian
  deriving DecidableEq, Repr

/-- The angle unit of a given name. -/
def AngleUnit.ofName (name : String) : Outcome AngleUnit :=
  if name = "degree" then .ok .degree
  else if name = "radian" then .ok .radian
  else .error (.mishap .unknownAngleUnit)

/-- What evaluation depends on besides the expression. -/
structure EvalSettings where
  angle : AngleUnit := .degree
  useFloats : Bool := false
  deriving DecidableEq, Repr

/-- The functions that have a name. -/
inductive NamedFunction where
  | sine
  | cosine
  | gcd
  deriving DecidableEq, Repr

namespace NamedFunction

/-- All functions, in the order of their codes. -/
def all : List NamedFunction := [sine, cosine, gcd]

/-- The name by which a function is called, typed and drawn. -/
def name : NamedFunction → String
  | sine => "sin"
  | cosine => "cos"
  | gcd => "gcd"

/-- How many arguments a function takes. -/
def arity : NamedFunction → Nat
  | sine => 1
  | cosine => 1
  | gcd => 2

/-- The code that stands for a function in the binary format and orders functions among each other. -/
def code : NamedFunction → Nat
  | sine => 1
  | cosine => 2
  | gcd => 3

/-- The function of a name, if there is one. -/
def ofName? (s : String) : Option NamedFunction := all.find? (·.name == s)

/-- The function of a number, if there is one. -/
def ofCode? (n : Nat) : Option NamedFunction := all.find? (·.code == n)

theorem ofName?_name (f : NamedFunction) : ofName? f.name = some f := by cases f <;> rfl

theorem ofCode?_code (f : NamedFunction) : ofCode? f.code = some f := by cases f <;> rfl

/-! ## Evaluation -/

/-- Half a turn in radians, as a double. -/
def halfTurn : Float := Float.ofBits 0x400921fb54442d18

/-- Sine or cosine in binary floating point. An infinite angle has neither. -/
def waveInFloats (cosine : Bool) (unit : AngleUnit) (v : Decimal) : Outcome Decimal :=
  let x := Binary64.ofDecimal v
  let angle := match unit with
    | .degree => x * halfTurn / 180
    | .radian => x
  if angle.isInf then .error (.mishap .notANumber)
  else .ok (Binary64.toDecimal (if cosine then angle.cos else angle.sin))

/-- Sine or cosine to full precision. -/
def waveInDecimals (cosine : Bool) (unit : AngleUnit) (v : Decimal) : Decimal :=
  match unit with
  | .degree => v.waveOfDegrees precision cosine
  | .radian => v.waveOfRadian precision cosine

/-- Sine or cosine of a number: an approximation without noise. -/
def wave (cosine : Bool) (settings : EvalSettings) (x : Number) : Outcome Number := do
  let v ← x.toDecimal
  let value ←
    if settings.useFloats then waveInFloats cosine settings.angle v
    else .ok (waveInDecimals cosine settings.angle v)
  return (← Number.ofDecimal (value.round precision) .approximate).denoise

/-- The greatest common divisor of two whole numbers, and one of any other two numbers. -/
def commonDivisor (x y : Number) : Outcome Number := do
  match ← x.whole?, ← y.whole? with
  | some m, some n => Number.ofInt (Int.gcd m n)
  | _, _ => return .decimal Decimal.one .exact

/-- The value of a function for evaluated arguments, whose number must be its arity. -/
def eval (f : NamedFunction) (args : List Number) (settings : EvalSettings) : Outcome Number :=
  match f, args with
  | sine, [x] => wave false settings x
  | cosine, [x] => wave true settings x
  | gcd, [x, y] => commonDivisor x y
  | _, _ => .error (.breach (.argumentCount f.name f.arity args.length))

end NamedFunction
end Mathpad
