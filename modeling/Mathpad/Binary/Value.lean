import Mathpad.Binary.Basic
import Mathpad.Number.Basic
import Mathpad.NamedFunction

/-
Numbers, functions and error causes in bytes.

A decimal is sixteen bytes: the number of its places and its sign in one word of four, and its digits
in the other three, so that digits beyond ninety-six bits are lost. Its tag comes before it and its
accuracy behind it. A fraction is a tag and two signed words of eight bytes.
-/
set_option autoImplicit false

namespace Mathpad

-- Powers of natural numbers are those of the core library, also where those of monoids are in scope.
attribute [local instance (high)] instPowNat

namespace Decimal

/-- The word with the places and the sign. -/
def flags (d : Decimal) : Nat :=
  let places := (-d.exponent).toNat * 2 ^ (16 : Nat)
  if d.negative then places ||| 2 ^ (31 : Nat) else places

/-- The sixteen bytes of a decimal. -/
def toBytes (d : Decimal) : Outcome Bytes :=
  if 2 ^ (32 : Nat) ≤ d.flags then .error (.mishap .fieldOverflow)
  else .ok (Bytes.ofWord 4 d.flags ++ Bytes.ofWord 12 (d.digits * 10 ^ d.exponent.toNat))

/-- The next decimal. -/
def take : Reader Decimal := do
  let flags ← Bytes.takeWord 4
  let digits ← Bytes.takeWord 12
  return ⟨flags.testBit 31, digits, -((flags / 2 ^ (16 : Nat) % 256 : Nat) : Int)⟩

end Decimal

namespace Accuracy

/-- The byte of a tag. -/
def code : Accuracy → UInt8
  | exact => 1
  | approximate => 2

/-- Reads a tag. -/
def take : Reader Accuracy := do
  match ← Bytes.next with
  | 1 => return exact
  | 2 => return approximate
  | _ => failure

end Accuracy

namespace Number

/-- The bytes of a signed word of eight bytes. -/
def wordBytes (n : Int) : Outcome Bytes :=
  if isWord n then .ok (Bytes.ofWord 8 (n % 2 ^ (64 : Nat)).toNat) else .error (.mishap .fieldOverflow)

/-- The next signed word of eight bytes. -/
def takeSigned : Reader Int := do return Int.bmod (← Bytes.takeWord 8) (2 ^ (64 : Nat))

/-- The bytes of a number, from which its form can be told. -/
def toBytes : Number → Outcome Bytes
  | .decimal v a => do return 1 :: (← v.toBytes) ++ [a.code]
  | .ratio n d => do
    let num ← wordBytes n
    return 2 :: num ++ (← wordBytes d)

/-- The next number. -/
def take : Reader Number := do
  match ← Bytes.next with
  | 1 =>
    let v ← Decimal.take
    return .decimal v (← Accuracy.take)
  | 2 =>
    let n ← takeSigned
    return .ratio n (← takeSigned)
  | _ => failure

end Number

namespace NamedFunction

/-- The byte of a function. -/
def toByte (f : NamedFunction) : UInt8 := UInt8.ofNat f.code

/-- Reads a function. -/
def take : Reader NamedFunction := do
  match ofCode? (← Bytes.next).toNat with
  | some f => return f
  | none => failure

end NamedFunction

namespace UpgradeError

/-- The causes in the order of their numbers, from one on. -/
def all : List UpgradeError :=
  [unexpectedTokensAtEnd, powerMissingBase, expectedUnit, cannotUpgradeToken, overflow]

/-- The byte of a reason why a row is no expression; none is zero. -/
def toByte (e : UpgradeError) : UInt8 := UInt8.ofNat (all.idxOf e + 1)

/-- Reads a reason why a row is no expression. -/
def take : Reader UpgradeError := do
  let b ← Bytes.next
  match all.find? (·.toByte == b) with
  | some e => return e
  | none => failure

end UpgradeError

namespace MathsError

/-- The causes in the order of their numbers, from one on. -/
def all : List MathsError := [divisionByZero, invalidSqrt, missingVariable, overflow, imaginary]

/-- The byte of a fault in arithmetic; none is zero. -/
def toByte (e : MathsError) : UInt8 := UInt8.ofNat (all.idxOf e + 1)

/-- Reads a fault in arithmetic. -/
def take : Reader MathsError := do
  let b ← Bytes.next
  match all.find? (·.toByte == b) with
  | some e => return e
  | none => failure

end MathsError

end Mathpad
