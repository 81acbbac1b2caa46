import Mathpad.Fault

/-
Bytes, and the counts and words that they are written in.

A count is written in a unary of bytes: every `255` stands for itself and more to come, and the first
smaller byte ends the count. Words have a fixed number of bytes, the least significant one first.

A reader takes what it needs from the front of the bytes and leaves the rest. It has no result where
the bytes end too early or make no sense.
-/
set_option autoImplicit false

namespace Mathpad

/-- Bytes in the order in which they are written. -/
abbrev Bytes := List UInt8

/-- A way to read a value from the front of some bytes. -/
abbrev Reader := StateT Bytes Option

namespace Bytes

/-- One byte, if the value fits. -/
def single (value : Int) : Outcome UInt8 :=
  if 0 ≤ value ∧ value ≤ 255 then .ok (UInt8.ofNat value.toNat) else .error (.mishap .byteOutOfRange)

/-- The bytes of a count. -/
def ofCount (n : Nat) : Bytes := List.replicate (n / 255) 255 ++ [UInt8.ofNat (n % 255)]

/-- The bytes of a whole number, which must not be negative. -/
def ofWhole (n : Int) : Outcome Bytes :=
  if n < 0 then .error (.refused .negativeCount) else .ok (ofCount n.toNat)

/-- A word of `size` bytes, from the low end; higher digits are dropped. -/
def ofWord : Nat → Nat → Bytes
  | 0, _ => []
  | size + 1, n => UInt8.ofNat (n % 256) :: ofWord size (n / 256)

/-- The number that the bytes of a word stand for. -/
def toWord : Bytes → Nat
  | [] => 0
  | b :: bs => b.toNat + 256 * toWord bs

/-- The next byte. -/
def next : Reader UInt8
  | b :: bs => some (b, bs)
  | [] => none

/-- A number of values of the same kind. -/
def takeMany {α : Type} (item : Reader α) : Nat → Reader (List α)
  | 0 => return []
  | n + 1 => do
    let a ← item
    return a :: (← takeMany item n)

/-- The next word of `size` bytes. -/
def takeWord (size : Nat) : Reader Nat := do return toWord (← takeMany next size)

/-- A count, from the bytes at the front. -/
def countFrom : Bytes → Option (Nat × Bytes)
  | [] => none
  | b :: bs =>
    if b = 255 then
      match countFrom bs with
      | some (n, rest) => some (255 + n, rest)
      | none => none
    else some (b.toNat, bs)

/-- The next count. -/
def takeCount : Reader Nat := countFrom

/-- The bytes as hexadecimal digits, two for each. -/
def toHex (bs : Bytes) : String :=
  String.ofList (bs.flatMap fun b => [digit (b.toNat / 16), digit (b.toNat % 16)])
where
  digit (n : Nat) : Char := Nat.digitChar n

end Bytes
end Mathpad
