import Mathpad.Expr.Basic
import Mathpad.Item.Reader

/-
Finding the expression that a row of items stands for.

    expression = term { (+ | -) term }
    term       = factor { (* | /) factor }
    factor     = { - } unit { power } [ factor ]

Sums and products are grouped to the left. A unit is a number, a variable or an item with rows inside
other than a power. A factor goes on with another one, multiplied to it, when a digit, a variable or
an item with rows inside follows directly. An odd number of minus signs negates the unit together
with its powers.

Items inside of others are turned into expressions first, each on its own. What then remains is a
flat list of parts, which is read from left to right; a failure inside a part counts only when the
part is reached.
-/
set_option autoImplicit false

namespace Mathpad

/-- An item whose inside is understood: a token, a unit, or an exponent. -/
inductive Part where
  | token (t : Token)
  | unit (e : Outcome Expr)
  | power (exponent : Outcome Expr)

namespace Part

/-- Whether a part begins a new factor right behind another one. -/
def startsFactor : Part → Bool
  | token (.digit _) | token (.var _) | unit _ => true
  | _ => false

/-! ## Numbers -/

/-- A number literal as far as it has been read. -/
structure Literal where
  mantissa : Nat := 0
  places : Nat := 0
  pointed : Bool := false
  deriving DecidableEq, Repr

namespace Literal

/-- A literal with one more digit, which is a place if there is a point. -/
def push (l : Literal) (digit : Int) : Literal :=
  { l with mantissa := l.mantissa * 10 + digit.toNat,
           places := if l.pointed then l.places + 1 else l.places }

/-- The number that a literal spells: a whole number when it has no point and fits, and otherwise an
exact decimal with the places as written. -/
def number (l : Literal) : Outcome Number :=
  if maxMagnitude < l.mantissa ∨ maxPlaces < l.places then .error (.upgrade .overflow)
  else if ¬ l.pointed ∧ (l.mantissa : Int) ≤ maxWord then .ok (.ratio l.mantissa 1)
  else .ok (.decimal ⟨false, l.mantissa, -(l.places : Int)⟩ .exact)

end Literal

/-- Goes on reading a literal: a maximal run of digits with at most one point. -/
def takeLiteral (l : Literal) : List Part → Literal × List Part
  | token (.digit d) :: ps => takeLiteral (l.push d) ps
  | token .point :: ps =>
    if l.pointed then (l, token .point :: ps) else takeLiteral { l with pointed := true } ps
  | ps => (l, ps)

/-- A literal takes parts away from the front. -/
theorem takeLiteral_length (l : Literal) (ps : List Part) :
    (takeLiteral l ps).2.length ≤ ps.length := by
  fun_induction takeLiteral l ps <;> simp_all <;> omega

/-! ## Factors -/

/-- The unit at the start. -/
def takeUnit : List Part → Outcome (Expr × List Part)
  | token (.digit d) :: ps => ofLiteral (takeLiteral (Literal.push {} d) ps)
  | token .point :: ps => ofLiteral (takeLiteral { pointed := true } ps)
  | token (.var name) :: ps => .ok (.var name, ps)
  | unit e :: ps => do return (← e, ps)
  | power _ :: _ => .error (.upgrade .powerMissingBase)
  | _ => .error (.upgrade .expectedUnit)
where
  ofLiteral (r : Literal × List Part) : Outcome (Expr × List Part) := do
    return (.number (← r.1.number), r.2)

/-- Raises `e` to the powers at the start, one after the other. -/
def takePowers (e : Expr) : List Part → Outcome (Expr × List Part)
  | power exponent :: ps => do takePowers (.power e (← exponent)) ps
  | ps => .ok (e, ps)

/-- The expression with the other sign: a number is negated at once, anything else is multiplied. -/
def negated : Expr → Outcome Expr
  | .number x => do return .number (← x.neg)
  | e => .ok (.binary .multiply (.number Number.minusOne) e)

/-- Splits off the minus signs at the start; the flag says whether their number is odd. -/
def takeMinuses (negative : Bool) : List Part → Bool × List Part
  | token .subtract :: ps => takeMinuses (!negative) ps
  | ps => (negative, ps)

/-- A unit with its signs and powers. -/
def takeSigned (ps : List Part) : Outcome (Expr × List Part) := do
  let (negative, ps) := takeMinuses false ps
  let (e, ps) ← takeUnit ps
  let (e, ps) ← takePowers e ps
  if negative then return (← negated e, ps) else return (e, ps)

/-! ### Reading a factor leaves less to read -/

/-- Minuses take parts away from the front. -/
theorem takeMinuses_length (negative : Bool) (ps : List Part) :
    (takeMinuses negative ps).2.length ≤ ps.length := by
  fun_induction takeMinuses negative ps <;> simp_all
  omega

/-- Powers take parts away from the front. -/
theorem takePowers_length {e e' : Expr} {ps rest : List Part}
    (h : takePowers e ps = .ok (e', rest)) : rest.length ≤ ps.length := by
  fun_induction takePowers e ps with
  | case1 e exponent ps ih =>
    obtain ⟨x, _, hx⟩ := Outcome.bind_eq_ok.1 h
    exact Nat.le_succ_of_le (ih x hx)
  | case2 => simp_all

/-- What is left behind a literal is left behind the unit. -/
theorem ofLiteral_rest {r : Literal × List Part} {e : Expr} {rest : List Part}
    (h : takeUnit.ofLiteral r = .ok (e, rest)) : rest = r.2 := by
  obtain ⟨x, _, hx⟩ := Outcome.bind_eq_ok.1 h
  cases hx
  rfl

/-- A unit takes away one part at least. -/
theorem takeUnit_length {e : Expr} {ps rest : List Part} (h : takeUnit ps = .ok (e, rest)) :
    rest.length < ps.length := by
  fun_cases takeUnit ps with
  | case1 d ps =>
    have := takeLiteral_length (Literal.push {} d) ps
    rw [ofLiteral_rest h]
    simp only [List.length_cons]
    omega
  | case2 ps =>
    have := takeLiteral_length { pointed := true } ps
    rw [ofLiteral_rest h]
    simp only [List.length_cons]
    omega
  | case3 name ps =>
    cases h
    simp
  | case4 u ps =>
    obtain ⟨x, _, hx⟩ := Outcome.bind_eq_ok.1 h
    cases hx
    simp
  | case5 => simp [takeUnit] at h
  | case6 => simp_all [takeUnit]

/-- A signed unit takes away one part at least. -/
theorem takeSigned_length {e : Expr} {ps rest : List Part} (h : takeSigned ps = .ok (e, rest)) :
    rest.length < ps.length := by
  have h1 := takeMinuses_length false ps
  obtain ⟨⟨unit, r⟩, hu, h⟩ := Outcome.bind_eq_ok.1 h
  obtain ⟨⟨raised, r'⟩, hp, h⟩ := Outcome.bind_eq_ok.1 h
  have h2 := takeUnit_length hu
  have h3 := takePowers_length hp
  have : rest = r' := by
    dsimp only at h
    split at h
    · obtain ⟨x, _, hx⟩ := Outcome.bind_eq_ok.1 h
      cases hx
      rfl
    · cases h
      rfl
  subst this
  omega

/-- A factor: a signed unit, multiplied by the factor that follows it directly. -/
def takeFactor (ps : List Part) : Outcome (Expr × List Part) :=
  match _h : takeSigned ps with
  | .error fault => .error fault
  | .ok (e, rest) =>
    if (rest.head?.map startsFactor).getD false then do
      let (f, rest) ← takeFactor rest
      return (.binary .multiply e f, rest)
    else .ok (e, rest)
termination_by ps.length
decreasing_by exact takeSigned_length _h

/-- A factor takes away one part at least. -/
theorem takeFactor_length {e : Expr} {ps rest : List Part} (h : takeFactor ps = .ok (e, rest)) :
    rest.length < ps.length := by
  fun_induction takeFactor ps generalizing e rest with
  | case1 => cases h
  | case2 ps first r hs _ ih =>
    obtain ⟨⟨f, r'⟩, hf, hr⟩ := Outcome.bind_eq_ok.1 h
    cases hr
    have := takeSigned_length hs
    have := ih hf
    omega
  | case3 ps first r hs =>
    cases h
    exact takeSigned_length hs

/-! ## Terms and sums -/

/-- The operation that a token joins factors by. -/
def factorOp? : Token → Option BinaryOp
  | .multiply => some .multiply
  | .divide => some .divide
  | _ => none

/-- The operation that a token joins terms by. -/
def termOp? : Token → Option BinaryOp
  | .add => some .add
  | .subtract => some .subtract
  | _ => none

/-- Joins `e` with the factors that follow it, from the left. -/
def takeFactors (e : Expr) : List Part → Outcome (Expr × List Part)
  | token t :: ps =>
    match factorOp? t with
    | none => .ok (e, token t :: ps)
    | some op =>
      match _h : takeFactor ps with
      | .error fault => .error fault
      | .ok (f, rest) => takeFactors (.binary op e f) rest
  | ps => .ok (e, ps)
termination_by ps => ps.length
decreasing_by exact Nat.lt_succ_of_lt (takeFactor_length _h)

/-- A term: factors joined by multiplication and division. -/
def takeTerm (ps : List Part) : Outcome (Expr × List Part) := do
  let (e, ps) ← takeFactor ps
  takeFactors e ps

/-- Factors take parts away from the front. -/
theorem takeFactors_length {e e' : Expr} {ps rest : List Part}
    (h : takeFactors e ps = .ok (e', rest)) : rest.length ≤ ps.length := by
  fun_induction takeFactors e ps generalizing e' rest with
  | case1 => simp_all
  | case2 => cases h
  | case3 e t ps op _ f r hf ih =>
    have := takeFactor_length hf
    have := ih h
    simp only [List.length_cons]
    omega
  | case4 => simp_all

/-- A term takes away one part at least. -/
theorem takeTerm_length {e : Expr} {ps rest : List Part} (h : takeTerm ps = .ok (e, rest)) :
    rest.length < ps.length := by
  obtain ⟨⟨f, r⟩, hf, hr⟩ := Outcome.bind_eq_ok.1 h
  have := takeFactor_length hf
  have := takeFactors_length hr
  omega

/-- Joins `e` with the terms that follow it, from the left. -/
def takeTerms (e : Expr) : List Part → Outcome (Expr × List Part)
  | token t :: ps =>
    match termOp? t with
    | none => .ok (e, token t :: ps)
    | some op =>
      match _h : takeTerm ps with
      | .error fault => .error fault
      | .ok (f, rest) => takeTerms (.binary op e f) rest
  | ps => .ok (e, ps)
termination_by ps => ps.length
decreasing_by exact Nat.lt_succ_of_lt (takeTerm_length _h)

end Part

/-! ## Rows -/

namespace Expr

/-- The expression that all the parts form together. -/
def ofParts (ps : List Part) : Outcome Expr := do
  let (e, ps) ← Part.takeTerm ps
  match ← Part.takeTerms e ps with
  | (e, []) => return e
  | _ => .error (.upgrade .unexpectedTokensAtEnd)

mutual

/-- An item with its inside understood. -/
def partOf : Item → Part
  | .token t => .token t
  | .sqrt inner => .unit do return .sqrt (← ofParts (partsOf inner))
  | .parentheses inner => .unit do return .parentheses (← ofParts (partsOf inner))
  | .fraction top bottom => .unit do
    let numerator ← ofParts (partsOf top)
    return .binary .divide numerator (← ofParts (partsOf bottom))
  | .call f args => .unit do return .call f (← ofRows args)
  | .power exponent => .power (ofParts (partsOf exponent))

/-- The parts that the items of a row are for reading. -/
def partsOf : List Item → List Part
  | [] => []
  | item :: items => partOf item :: partsOf items

/-- The expressions that rows stand for, in their order. -/
def ofRows : List (List Item) → Outcome (List Expr)
  | [] => .ok []
  | row :: rows => do
    let e ← ofParts (partsOf row)
    return e :: (← ofRows rows)

end

/-- The expression that a row stands for. -/
def ofRow (row : Row) : Outcome Expr := ofParts (partsOf row)

/-- The expression that an item stands for by itself. -/
def ofItem (item : Item) : Outcome Expr :=
  match partOf item with
  | .unit e => e
  | .power _ => .error (.upgrade .powerMissingBase)
  | .token _ => .error (.upgrade .cannotUpgradeToken)

/-- The expression that a text from a user spells. -/
def ofText (s : String) : Outcome Expr := do ofRow (← Row.ofText s)

end Expr
end Mathpad
