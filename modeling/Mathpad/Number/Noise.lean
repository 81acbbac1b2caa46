import Mathpad.Number.Arithmetic

/-
Removing noise from approximate decimals.

A value such as `5.1401999999999997` is most likely `5.1402`. A long enough run of zeros or nines
among the places is taken as the point where the noise begins: the decimal is cut off there, and
behind a run of nines the last kept place goes up by one. A value that really contains such a run is
damaged, which is the price; the run length says how sure one wants to be.
-/
set_option autoImplicit false

namespace Mathpad

/-- The length of the run of equal characters `c` at the start of `cs`. -/
def runLength (c : Char) (cs : List Char) : Nat := (cs.takeWhile (· == c)).length

/-- The first place in `cs` at which a run of at least `n` zeros or nines starts, counted from
`start`; the flag is set for nines. -/
def findRun (n : Nat) : List Char → Nat → Option (Nat × Bool)
  | [], start => if n = 0 then some (start, false) else none
  | c :: cs, start =>
    if n ≤ runLength '0' (c :: cs) then some (start, false)
    else if n ≤ runLength '9' (c :: cs) then some (start, true)
    else findRun n cs (start + 1)

/-- The run length that counts as noise unless another one is asked for. -/
def noiseRun : Nat := 10

namespace Decimal

/-- `d` without noise from the first run of at least `n` zeros or nines on. Nothing is changed when
there is no such run, and no run has a negative length. -/
def denoise (d : Decimal) (n : Int) : Decimal :=
  let (whole, places) := (d.magnitude precision).splitAtPoint
  match if n < 0 then none else findRun n.toNat places 0 with
  | none => d
  | some (start, nines) =>
    let kept := places.take start
    let cut : Decimal := ⟨false, digitsValue (whole ++ kept), -(kept.length : Int)⟩
    let raised := if nines then (cut.add ⟨false, 1, -(kept.length : Int)⟩).round precision else cut
    let signed := if d.isBelowZero then raised.negate precision else raised
    if signed.digits = 0 then zero else signed

end Decimal

/-- An approximate number without noise; an exact number as it is. -/
def Number.denoise : Number → Number
  | .decimal v .approximate => .decimal (v.denoise noiseRun) .approximate
  | x => x

end Mathpad
