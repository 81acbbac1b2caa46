import Mathpad.Term.Basic

/-
How far a term is from being reduced.

Reduction calls itself on terms that it has built on the way, and these can be larger than the term
it was given: an exponent is written once for every factor of a product, and a split exponent makes
two powers of one. What goes down is a pair. First comes the depth to which exponents are nested,
where exponents that are numbers count for nothing; combining exponents happens one level further
in. At equal depth it is the weight, which looks at bases only.

The weights of a few terms have to stand in a certain relation. A factor written out twice weighs
more than any power of it, a power of a power weighs more than one power, and a fractional exponent
weighs more than the two powers that it is split into; two like summands weigh more than one with a
coefficient. A quarter of the weight of the base for a power with a plain exponent, and almost twice
the weight for any other, make room for all of these.
-/
set_option autoImplicit false

namespace Mathpad.Term

/-- The parts of an exponent that is a fraction and neither whole nor a plain root. -/
def splitExponent? : Term → Option (Int × Int)
  | .number (.ratio n d) => if n ≠ 1 ∧ d ≠ 1 then some (n, d) else none
  | _ => none

/-- Whether a term is a number. -/
def isNumber (t : Term) : Bool := t.number?.isSome

/-! ## Depth -/

mutual

/-- How deep exponents are nested in a term. A number has no depth, and neither have sums and
products of nothing but numbers, which reduce to one. -/
def depth : Term → Nat
  | number _ => 0
  | var _ => 1
  | product ts => if ts.all isNumber then 0 else max 1 (depthAll ts)
  | sum ts => if ts.all isNumber then 0 else max 1 (depthAll ts)
  | power b e => max b.depth (if e.isNumber then 1 else max 1 e.depth + 1)
  | call _ ts => max 1 (depthAll ts)

/-- The depth of the deepest of some terms. -/
def depthAll : List Term → Nat
  | [] => 0
  | t :: ts => max t.depth (depthAll ts)

end

/-! ## Weight -/

/-- The weight of a power, given its exponent and the weight of its base. -/
def powerWeight (e : Term) (base : Nat) : Nat :=
  if e.isNumber ∧ e.splitExponent? = none then base + base / 4 else 2 * base - 1

mutual

/-- What a term weighs, its exponents left out. -/
def weight : Term → Nat
  | number _ => 20
  | var _ => 25
  | product ts => max 20 (weightAll ts + 4)
  | sum ts => weightAll ts + 25
  | power b e => powerWeight e b.weight
  | call _ ts => weightAll ts + 25

/-- What some terms weigh together. -/
def weightAll : List Term → Nat
  | [] => 0
  | t :: ts => t.weight + weightAll ts

end

/-- Whether `u` is nearer to being reduced than `t` is. -/
def Precedes (u t : Term) : Prop := u.depth < t.depth ∨ u.depth = t.depth ∧ u.weight < t.weight

instance (u t : Term) : Decidable (Precedes u t) :=
  inferInstanceAs (Decidable (u.depth < t.depth ∨ u.depth = t.depth ∧ u.weight < t.weight))

end Mathpad.Term
