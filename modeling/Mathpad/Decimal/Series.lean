import Mathpad.Decimal.Root

/-
Logarithm, exponential, sine and cosine by their power series in fixed point.

A fixed-point number is a whole number `v` that stands for `v / one`, where `one` is a power of ten
carrying some twenty digits more than the caller wants to keep. Arguments are first moved to where
the series converges quickly: a logarithm takes out a power of two, an exponential a power of ten,
and a sine or cosine the full turns, which for an angle in degrees is done exactly, before the
circle constant is involved at all. Each truncated step is off by less than one unit in the last
place, so the guard digits absorb all of them, and the single rounding at the end is the only one
that shows.
-/
set_option autoImplicit false

namespace Mathpad

-- Powers of natural numbers are those of the core library, also where those of monoids are in scope.
attribute [local instance (high)] instPowNat

namespace Series

/-! ## Sums of vanishing terms -/

/-- `term + term · r / (k + 1) + …`: the exponential series from its `k`-th term on, stopped when
the terms vanish. -/
def expTail (one r : Int) : Nat → Nat → Int → Int
  | 0, _, _ => 0
  | fuel + 1, k, term =>
    if term = 0 then 0 else term + expTail one r fuel (k + 1) ((term * r).tdiv (one * (k + 1)))

/-- `term - term · r² / ((k + 1) (k + 2)) + …`: the alternating series of sine (from `k = 1`) and
cosine (from `k = 0`). -/
def waveTail (one square : Int) : Nat → Nat → Int → Int
  | 0, _, _ => 0
  | fuel + 1, k, term =>
    if term = 0 then 0
    else term + waveTail one square fuel (k + 2) (-((term * square).tdiv (one * ((k + 1) * (k + 2)))))

/-- `power / k + power · n² / d² / (k + 2) + …`: the odd powers of `n / d` over their exponents, with
alternating signs when `alternating` is set. -/
def oddTail (alternating : Bool) (n d : Int) : Nat → Nat → Int → Int
  | 0, _, _ => 0
  | fuel + 1, k, power =>
    if power = 0 then 0
    else
      let next := (power * (n * n)).tdiv (d * d)
      power.tdiv k + oddTail alternating n d fuel (k + 2) (if alternating then -next else next)

/-- A bound on the number of terms that matter: every series here gains a bit per term at least. -/
def termLimit (one : Int) : Nat := 4 * one.natAbs.log2 + 64

/-- `2 · artanh (n / d)`, the logarithm of `(d + n) / (d - n)`. -/
def twiceArtanh (one n d : Int) : Int :=
  2 * oddTail false n d (termLimit one) 1 ((one * n).tdiv d)

/-- `arctan (1 / d)`. -/
def arctanInverse (one d : Int) : Int :=
  oddTail true 1 d (termLimit one) 1 (one / d)

/-! ## Constants -/

/-- The logarithm of two is that of `(3 + 1) / (3 - 1)`. -/
def lnTwo (one : Int) : Int := twiceArtanh one 1 3

/-- Ten is eight times `(9 + 1) / (9 - 1)`. -/
def lnTen (one : Int) : Int := 3 * lnTwo one + twiceArtanh one 1 9

/-- Half a turn in radians. -/
def pi (one : Int) : Int := 16 * arctanInverse one 5 - 4 * arctanInverse one 239

end Series

namespace Decimal

open Series

/-- Digits carried beyond those that are kept. -/
def guardDigits : Nat := 22

/-- The fixed-point value of `d`, cut off below one unit. -/
def fixed (d : Decimal) (places : Nat) : Int :=
  let shift := d.exponent + places
  if 0 ≤ shift then d.signedDigits * 10 ^ shift.toNat
  else d.signedDigits / 10 ^ (-shift).toNat

/-- A fixed-point value as a decimal. -/
def ofFixed (v : Int) (places : Nat) : Decimal := ⟨v < 0, v.natAbs, -(places : Int)⟩

/-! ## Logarithm and exponential -/

/-- Extra places for an argument that is small: its square and its cube, which decide the rounding
when the first term ends in a half, begin two and three times as far behind the point. -/
def placesForSmall (d : Decimal) : Nat := 2 * (-d.leadingExponent).toNat

/-- The natural logarithm of a positive decimal to `p` digits. -/
def ln (p : Nat) (d : Decimal) : Decimal :=
  let places := p + guardDigits + placesForSmall (d.sub Decimal.one)
  let one : Int := 10 ^ places
  let n : Nat := d.digits * 10 ^ d.exponent.toNat
  let m : Nat := 10 ^ (-d.exponent).toNat
  let twos : Int := n.log2 - m.log2
  let n' : Int := n * 2 ^ (-twos).toNat
  let m' : Int := m * 2 ^ twos.toNat
  (ofFixed (twos * lnTwo one + twiceArtanh one (n' - m') (n' + m')) places).round p

/-- The exponential of `d` to `p` digits, for a `d` of moderate size. -/
def exp (p : Nat) (d : Decimal) : Decimal :=
  let places := p + guardDigits + min (2 * p) (placesForSmall d)
  let one : Int := 10 ^ places
  let v := d.fixed places
  let ten := lnTen one
  let tens := (2 * v + ten) / (2 * ten)
  let e := expTail one (v - tens * ten) (termLimit one) 0 one
  (⟨e < 0, e.natAbs, tens - places⟩ : Decimal).round p

/-! ## Sine and cosine -/

/-- Places carried for a sine or cosine. A value below `10 ^ (-28)` is no longer told from zero, so
these leave well over twenty-eight significant digits to any value that is. -/
def wavePlaces : Nat := 120

/-- Sine or cosine of an angle of `v` radians in fixed point, to `p` digits. -/
def waveOfRadians (p : Nat) (cosine : Bool) (v : Int) (places : Nat) : Decimal :=
  let one : Int := 10 ^ places
  let turn := 2 * pi one
  let rest := v - (2 * v + turn) / (2 * turn) * turn
  let square := rest * rest / one
  let sum :=
    if cosine then waveTail one square (termLimit one) 0 one
    else waveTail one square (termLimit one) 1 rest
  (ofFixed sum places).round p

/-- Sine or cosine of `n / d` twelfths of a turn when it is rational: that is so exactly at the whole
twelfths where it is a whole number of halves. -/
def waveOfTwelfth? (cosine : Bool) (n d : Int) : Option Decimal :=
  if n % d = 0 then
    match (n / d + if cosine then 3 else 0) % 12 with
    | 0 | 6 => some Decimal.zero
    | 1 | 5 => some ⟨false, 5, -1⟩
    | 3 => some Decimal.one
    | 7 | 11 => some ⟨true, 5, -1⟩
    | 9 => some ⟨true, 1, 0⟩
    | _ => none
  else none

/-- Sine or cosine of an angle in degrees to `p` digits. -/
def waveOfDegrees (p : Nat) (cosine : Bool) (d : Decimal) : Decimal :=
  let unit : Int := 10 ^ (-d.exponent).toNat
  let angle := d.signedDigits * 10 ^ d.exponent.toNat
  match waveOfTwelfth? cosine angle (30 * unit) with
  | some exact => exact
  | none =>
    let turn := 360 * unit
    let rest := angle - (2 * angle + turn) / (2 * turn) * turn
    waveOfRadians p cosine (rest * pi (10 ^ wavePlaces) / (180 * unit)) wavePlaces

/-- Sine or cosine of an angle in radians to `p` digits. Only zero has a rational value. -/
def waveOfRadian (p : Nat) (cosine : Bool) (d : Decimal) : Decimal :=
  if d.digits = 0 then (if cosine then Decimal.one else Decimal.zero)
  else
    let places := wavePlaces + (d.leadingExponent + 1).toNat
    waveOfRadians p cosine (d.fixed places) places

end Decimal
end Mathpad
