import Mathpad.Term.Measure
import Mathpad.Term.Order

/-
Reducing a term to a simpler one of the same value.

Numbers in a sum or a product are added up or multiplied, members of a sum that differ in a
coefficient only are merged, and so are factors with the same base. Powers of powers, of products
and of numbers are worked out; a fractional exponent `n / d` is first split into the power `n` and
the root `1 / d`, and roots of numbers stay as they are.

A rewritten term is reduced again, until nothing changes. The rules are given as one step,
`reduceStep`, which leaves every further reduction to a function that it is given, and reduction is
the step that is given itself. A call on a term that is no nearer to being reduced would be one that
might go on for ever, and it is refused.
-/
set_option autoImplicit false

namespace Mathpad

/-- A reduced term, and whether anything was done to it. -/
structure Reduced where
  term : Term
  performed : Bool
  deriving Repr

/-! ## Operations of any number of members -/

/-- The two operations that take any number of members. -/
inductive Operation where
  | product
  | sum
  deriving DecidableEq, Repr

namespace Operation

/-- The operation applied to these members. -/
def apply : Operation → List Term → Term
  | product => .product
  | sum => .sum

/-- The members of a term to which this operation was applied. -/
def members? : Operation → Term → Option (List Term)
  | product, .product ts => some ts
  | sum, .sum ts => some ts
  | _, _ => none

/-- Combines two numbers by the operation. -/
def combine : Operation → Number → Number → Outcome Number
  | product => Number.mul
  | sum => Number.add

/-- The number that changes nothing, and the value without any members. -/
def neutral : Operation → Number
  | product => Number.one
  | sum => Number.zero

/-- Whether a number has the value of the neutral one. -/
def isNeutral : Operation → Number → Bool
  | product => Number.isOne
  | sum => Number.isZero

/-- Whether a number makes zero of whatever it is combined with. -/
def absorbs : Operation → Number → Bool
  | product => Number.isZero
  | sum => fun _ => false

end Operation

namespace Term

/-! ## Members of sums and products -/

/-- Reduces each member, lifts the members of members of the same kind, and sorts again if anything
changed. -/
def reduceMembers (reduce : Term → Outcome Reduced) (op : Operation) (ts : List Term) :
    Outcome (List Term × Bool) := do
  let sorted ← sortBy order ts
  let reduced ← sorted.mapM reduce
  let members := reduced.flatMap fun r => (op.members? r.term).getD [r.term]
  if reduced.any fun r => (op.members? r.term).isSome || r.performed then
    return (← sortBy order members, true)
  else return (members, false)

/-- Splits off the numbers at the front. -/
def leadingNumbers (ts : List Term) : List Number × List Term :=
  ((ts.takeWhile isNumber).filterMap number?, ts.dropWhile isNumber)

/-- Combines the numbers of a sum or a product into one. The neutral number is dropped unless it
stands alone. -/
def mergeNumbers (op : Operation) (numbers : List Number) (alone : Bool) :
    Outcome (List Number × Bool) := do
  if numbers.isEmpty then return ([], false)
  let total ← numbers.foldlM op.combine op.neutral
  if op.isNeutral total && !alone then return ([], true)
  else if 1 < numbers.length then return ([total], true)
  else return (numbers, false)

/-- What is left of a sum or a product with these members; one that holds no more than one member is
that member, or the neutral number. -/
def ofMembers (op : Operation) (ts : List Term) (changed : Bool) : Reduced :=
  match ts with
  | [] => ⟨.number op.neutral, true⟩
  | [t] => ⟨t, true⟩
  | ts => ⟨op.apply ts, changed⟩

/-! ## Like factors and like terms -/

/-- Brings members with equal keys together, in the order of their keys, and puts one term or none in
the place of each group of two or more; nothing if there is no such group. -/
def mergeRuns {ι : Type} (key whole : ι → Term) (merge : ι → List ι → Outcome (Option Term))
    (items : List ι) : Outcome (Option (List Term)) := do
  let byKey := fun a b => (key a).order (key b)
  let runs ← runsBy byKey (← sortBy byKey items)
  let merged ← runs.mapM fun run =>
    match run with
    | [] => pure none
    | [only] => pure (some (whole only))
    | first :: more => merge first (first :: more)
  return if runs.any (1 < ·.length) then some (merged.filterMap id) else none

/-- A factor seen as a power. -/
structure Factor where
  base : Term
  exponent : Term
  whole : Term

/-- A term as base and exponent. What is no power has the exponent one. -/
def Factor.ofTerm : Term → Factor
  | .power b e => ⟨b, e, .power b e⟩
  | t => ⟨t, .number Number.one, t⟩

/-- The power that a group of factors with one base makes, their exponents being added. -/
def mergeFactors (reduce : Term → Outcome Reduced) (first : Factor) (run : List Factor) :
    Outcome (Option Term) := do
  let exponent ← reduce (.sum (run.map (·.exponent)))
  let power ← reduce (.power first.base exponent.term)
  return some power.term

/-- A member of a sum seen as a multiple. -/
structure Multiple where
  term : Term
  coefficient : Number
  whole : Term

/-- A term as coefficient and the rest. What has no number in front has the coefficient one. -/
def Multiple.ofTerm : Term → Multiple
  | .product [.number k, t] => ⟨t, k, .product [.number k, t]⟩
  | .product (.number k :: ts) => ⟨.product ts, k, .product (.number k :: ts)⟩
  | t => ⟨t, Number.one, t⟩

/-- The multiple of a term, or nothing if it is zero. -/
def multiple? (k : Number) (t : Term) : Option Term :=
  if k.isZero then none
  else if k.isOne then some t
  else some (.product (.number k :: t.factors))

/-- The multiple that a group of multiples of one term makes, their coefficients being added. -/
def mergeMultiples (first : Multiple) (run : List Multiple) : Outcome (Option Term) := do
  let k ← (run.map (·.coefficient)).foldlM Number.add Number.zero
  return multiple? k first.term

/-- Merges like members: factors with the same base, and summands that differ in a coefficient. -/
def mergeLike (reduce : Term → Outcome Reduced) :
    Operation → List Term → Outcome (Option (List Term))
  | .product, ts => mergeRuns Factor.base Factor.whole (mergeFactors reduce) (ts.map Factor.ofTerm)
  | .sum, ts => mergeRuns Multiple.term Multiple.whole mergeMultiples (ts.map Multiple.ofTerm)

/-! ## The rules -/

/-- The sum or product of some members. -/
def reduceOperation (reduce : Term → Outcome Reduced) (op : Operation) (ts : List Term) :
    Outcome Reduced := do
  let (members, changed) ← reduceMembers reduce op ts
  let (numbers, rest) := leadingNumbers members
  if numbers.any op.absorbs then return ⟨.number Number.zero, true⟩
  let (numbers, merged) ← mergeNumbers op numbers rest.isEmpty
  match ← mergeLike reduce op rest with
  | some combined =>
    let r ← reduce (op.apply (numbers.map .number ++ combined))
    return ⟨r.term, true⟩
  | none => return ofMembers op (numbers.map .number ++ rest) (changed || merged)

/-- The whole number that an exponent is. -/
def wholeExponent? : Term → Outcome (Option Int)
  | .number x => x.whole?
  | _ => .ok none

/-- The power of a number, if it is one: a root with a fraction as its exponent stays a power. -/
def numberPower? (x : Number) (e : Term) (whole : Option Int) : Outcome (Option Number) :=
  match whole, e with
  | some n, _ => some <$> x.powInt n
  | none, .number (.decimal v a) => some <$> x.pow (.decimal v a)
  | none, _ => .ok none

/-- The power of two reduced terms whose exponent is neither split nor zero nor one. -/
def combinePower (reduce : Term → Outcome Reduced) (b e : Term) (whole : Option Int)
    (changed : Bool) : Outcome Reduced :=
  match b with
  | .number x => do
    match ← numberPower? x e whole with
    | some y => return ⟨.number y, true⟩
    | none => return ⟨.power b e, changed⟩
  | .power b' e' => do
    let exponent ← reduce (.product [e', e])
    if (splitExponent? exponent.term).isSome then return ⟨.power b e, changed⟩
    else
      let r ← reduce (.power b' exponent.term)
      return ⟨r.term, true⟩
  | .product ts => do
    let r ← reduce (.product (ts.map (.power · e)))
    return ⟨r.term, true⟩
  | _ => return ⟨.power b e, changed⟩

/-- The power of two reduced terms. -/
def reducePower (reduce : Term → Outcome Reduced) (b e : Term) (changed : Bool) :
    Outcome Reduced :=
  match splitExponent? e with
  | some (n, d) => do
    let r ← reduce (.power (.power b (.number (.ratio n 1))) (.number (.ratio 1 d)))
    return ⟨r.term, true⟩
  | none => do
    let whole ← wholeExponent? e
    if whole = some 1 then return ⟨b, true⟩
    else if whole = some 0 then return ⟨.number Number.one, true⟩
    else combinePower reduce b e whole changed

/-- One step of reduction: the rule for the outermost node, which leaves the reduction of any other
term to `reduce`. -/
def reduceStep (reduce : Term → Outcome Reduced) : Term → Outcome Reduced
  | number x => return ⟨.number x, false⟩
  | var name => return ⟨.var name, false⟩
  | product ts => reduceOperation reduce .product ts
  | sum ts => reduceOperation reduce .sum ts
  | power b e => do
    let base ← reduce b
    let exponent ← reduce e
    reducePower reduce base.term exponent.term (base.performed || exponent.performed)
  | call f ts => do
    let rs ← ts.mapM reduce
    return ⟨.call f (rs.map (·.term)), rs.any (·.performed)⟩

/-- Reduces a term until nothing changes any more. -/
def reduce (t : Term) : Outcome Reduced :=
  reduceStep (fun u => if u.Precedes t then u.reduce else .error (.mishap .endless)) t
termination_by (t.depth, t.weight)
decreasing_by
  rename_i h
  rcases h with h | ⟨hd, hw⟩
  · exact Prod.Lex.left _ _ h
  · rw [hd]
    exact Prod.Lex.right _ hw

/-- Flattens, sorts and reduces a term. -/
def simplify (t : Term) : Outcome Reduced := do (← t.flatten.sort).reduce

end Term
end Mathpad
