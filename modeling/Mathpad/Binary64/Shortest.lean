/-
The fewest digits that read back as a given binary floating-point number.

A finite double is `m · 2 ^ q` exactly, and the numbers that round to it fill an interval that
reaches half way to its neighbours. Among the decimals with `k` significant digits only the two next
to the value can be the nearest, so for `k = 1, 2, …` those two are tried and the first `k` with one
inside the interval gives the shortest text. All comparisons are between whole numbers after both
sides are multiplied by the same power of two and ten.
-/
set_option autoImplicit false

namespace Mathpad.Binary64

-- Powers of natural numbers are those of the core library, also where those of monoids are in scope.
attribute [local instance (high)] instPowNat

/-- A positive double as `mantissa · 2 ^ exponent`; `atPower` is set when the next lower double is only
half as far away as the next higher one. -/
structure Parts where
  mantissa : Nat
  exponent : Int
  atPower : Bool
  deriving DecidableEq, Repr

/-- The parts of the magnitude of a finite double, from its bits. -/
def parts (x : Float) : Parts :=
  let bits := x.toBits.toNat
  let fraction : Nat := bits % 2 ^ (52 : Nat)
  let field : Nat := bits / 2 ^ (52 : Nat) % 2 ^ (11 : Nat)
  if field = 0 then ⟨fraction, -1074, false⟩
  else ⟨2 ^ (52 : Nat) + fraction, field - 1075, fraction == 0 && 1 < field⟩

/-- Whether the sign bit is set. -/
def isNegative (x : Float) : Bool := x.toBits.toNat / 2 ^ (63 : Nat) == 1

/-- `n · 2 ^ e · 10 ^ t` as a fraction of whole numbers. -/
def scaled (n : Nat) (e t : Int) : Nat × Nat :=
  (n * 2 ^ e.toNat * 10 ^ t.toNat, 2 ^ (-e).toNat * 10 ^ (-t).toNat)

/-- Whether `c · 10 ^ t` rounds to the double; the ends of the interval belong to it exactly when the
mantissa is even. Everything is measured in quarters of the last bit. -/
def roundsTo (p : Parts) (c : Nat) (t : Int) : Bool :=
  let (n, d) := scaled (4 * c) (-p.exponent) t
  let low := (4 * p.mantissa - if p.atPower then 1 else 2) * d
  let high := (4 * p.mantissa + 2) * d
  if p.mantissa % 2 = 0 then low ≤ n && n ≤ high else low < n && n < high

/-- The nearest of the numbers with the last digit at `10 ^ t` that round to the double; of two that
are equally near, the one with the even last digit. -/
def candidate? (p : Parts) (t : Int) : Option Nat :=
  let (n, d) := scaled p.mantissa p.exponent (-t)
  let below := n / d
  let preferAbove := d < 2 * (n % d) || (2 * (n % d) == d && below % 2 == 1)
  let (first, second) := if preferAbove then (below + 1, below) else (below, below + 1)
  if roundsTo p first t then some first else if roundsTo p second t then some second else none

/-- An exponent of ten at or just above the leading digit of a positive double. -/
def topExponent (p : Parts) : Int :=
  (p.mantissa.log2 + p.exponent + 1) * 30103 / 100000 + 1

/-- Tries ever lower last digits until one of them reads back. -/
def search (p : Parts) : Nat → Int → Nat × Int
  | 0, t => (0, t)
  | fuel + 1, t =>
    match candidate? p t with
    | some (c + 1) => (c + 1, t)
    | _ => search p fuel (t - 1)

/-- The digits of `n` without zeros at its end, and how many zeros there were. -/
def stripZeros (n : Nat) : Nat → Nat × Nat
  | 0 => (n, 0)
  | fuel + 1 =>
    if n % 10 = 0 ∧ n ≠ 0 then
      let (m, k) := stripZeros (n / 10) fuel
      (m, k + 1)
    else (n, 0)

/-- The shortest decimal that reads back as the magnitude of a finite double: a coefficient that does
not end in zero, and an exponent. -/
def shortest (x : Float) : Nat × Int :=
  let p := parts x
  if p.mantissa = 0 then (0, 0)
  else
    let (c, t) := search p 24 (topExponent p)
    let (m, k) := stripZeros c 24
    (m, t + k)

end Mathpad.Binary64
