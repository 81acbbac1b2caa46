import Mathpad.Decimal.Arithmetic

/-
Whole roots of natural numbers and square roots of decimals.

A root is found one bit at a time from the top: at every stage the bits fixed so far are the
largest choice whose power still fits below the radicand, so after the last bit the result is the
largest whole number whose power fits. No estimate and no convergence argument is needed, and the
square root of a decimal is the whole square root of its coefficient scaled far enough up.
-/
set_option autoImplicit false

namespace Mathpad

-- Powers of natural numbers are those of the core library, also where those of monoids are in scope.
attribute [local instance (high)] instPowNat

/-! ## Roots of natural numbers -/

/-- Extends the root `r` of `n` by the bits of weight below `2 ^ i`, keeping a bit when the `k`-th
power still fits. -/
def rootBits (k n : Nat) : Nat → Nat → Nat
  | 0, r => r
  | i + 1, r => if (r + 2 ^ i) ^ k ≤ n then rootBits k n i (r + 2 ^ i) else rootBits k n i r

/-- The largest number whose `k`-th power is at most `n`, for a `k` above zero. Below `2 ^ k` that is
zero or one, which spares computing a power with a huge exponent. -/
def floorRoot (k n : Nat) : Nat :=
  if n.log2 < k then min n 1 else rootBits k n (n.log2 / k + 1) 0

/-- The `k`-th root of `n` when it is a whole number. -/
def exactRoot? (k n : Nat) : Option Nat :=
  let r := floorRoot k n
  if n.log2 < k then (if n ≤ 1 then some r else none)
  else if r ^ k = n then some r else none

namespace Decimal

/-! ## Square roots of decimals -/

/-- Half an exponent, toward minus infinity. -/
def halfExponent (e : Int) : Int := e.fdiv 2

/-- The square root of a non-negative decimal to `p` digits. The coefficient is brought to `p + 1`
digits of base one hundred before its whole root is taken; an exact root is written with half the
exponent when its digits allow. -/
def sqrt (p : Nat) (d : Decimal) : Decimal :=
  let ideal := halfExponent d.exponent
  if d.digits = 0 then ⟨d.negative, 0, ideal⟩
  else
    let odd := d.exponent - 2 * ideal
    let radicand := d.digits * 10 ^ odd.toNat
    let shift : Int := (p : Int) + 1 - ((digitCount radicand + 1) / 2 : Nat)
    let n := radicand * 100 ^ shift.toNat / 100 ^ (-shift).toNat
    let r := floorRoot 2 n
    if radicand * 100 ^ shift.toNat = r * r * 100 ^ (-shift).toNat then
      (⟨false, r * 10 ^ (-shift).toNat / 10 ^ shift.toNat, ideal⟩ : Decimal).round p
    else (⟨false, markInexact r, ideal - shift⟩ : Decimal).round p

end Decimal
end Mathpad
