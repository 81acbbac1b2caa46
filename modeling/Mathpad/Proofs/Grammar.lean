import Mathlib.Data.Nat.Digits.Defs
import Mathlib.Data.List.Basic
import Mathpad.Expr.OfRow

/-!
# The grammar of rows

Which rows are expressions, and of what, said without an order of reading:

    sum    = term { (+ | -) term }
    term   = factor { (* | /) factor }
    factor = signed [ factor ]
    signed = { - } raised
    raised = unit { power }

`Derives` has one constructor for each way to build a row, and `Fails` one for each way
in which a row goes wrong; the place is always the first one that does not fit, and what
stands before it is an expression, or an expression and an operator.

The one thing that is not visible in the shape of a row is where a number literal ends:
literals are as long as they can be. `openLiteral` tells what kind of literal a row ends
with, and `Ends` says that the next item does not belong to it.
-/
set_option autoImplicit false

namespace Mathpad

/-! ## Number literals -/

/-- A number literal: digits, and behind a point more digits. One of the two parts may be
empty, and with a point both may. -/
structure Numeral where
  whole : List Int
  fraction : Option (List Int)
  written : whole ≠ [] ∨ fraction ≠ none

namespace Numeral

/-- The items that a literal consists of. -/
def row (n : Numeral) : Row :=
  n.whole.map Item.digit ++
    match n.fraction with
    | none => []
    | some ds => .token .point :: ds.map Item.digit

/-- The digits of a literal read as one whole number. -/
def mantissa (n : Numeral) : Nat :=
  Nat.ofDigits 10 ((n.whole ++ n.fraction.getD []).map Int.toNat).reverse

/-- How many digits stand behind the point. -/
def places (n : Numeral) : Nat := (n.fraction.getD []).length

/-- Whether there is a number for the literal. -/
def InRange (n : Numeral) : Prop := n.mantissa ≤ maxMagnitude ∧ n.places ≤ maxPlaces

instance (n : Numeral) : Decidable n.InRange := inferInstanceAs (Decidable (_ ∧ _))

/-- What a literal spells: a fraction when it has no point and fits a word, and otherwise
an exact decimal with the digits as written. -/
def number (n : Numeral) : Number :=
  if n.fraction = none ∧ (n.mantissa : Int) ≤ maxWord then .ratio n.mantissa 1
  else .decimal ⟨false, n.mantissa, -(n.places : Int)⟩ .exact

end Numeral

/-! ## Where a literal ends -/

/-- Whether a row ends with a literal, and if so, whether that has a point. -/
def openLiteral (row : Row) : Option Bool := row.foldl goOn none
where
  goOn (state : Option Bool) : Item → Option Bool
    | .token (.digit _) => some (state.getD false)
    | .token .point => some true
    | _ => none

/-- Whether an item belongs to the literal before it. -/
def Item.continues : Option Bool → Item → Bool
  | some _, .token (.digit _) => true
  | some false, .token .point => true
  | _, _ => false

/-- The literal at the end of a row, if there is one, does not go on with what follows. -/
def Ends (row rest : Row) : Prop :=
  rest.head?.any (Item.continues (openLiteral row)) = false

/-- Whether a factor goes on with another one when this item follows. -/
def Item.startsFactor : Item → Bool
  | .token (.digit _) | .token (.var _) => true
  | .token _ | .power _ => false
  | _ => true

/-- Whether a row begins like a factor that may stand directly behind another one. -/
def StartsFactor (row : Row) : Prop := row.head?.any Item.startsFactor = true

/-! ## Signs -/

/-- The token of an operation. -/
def BinaryOp.token : BinaryOp → Token
  | add => .add
  | subtract => .subtract
  | multiply => .multiply
  | divide => .divide

/-- A minus sign. -/
def Item.minus : Item := .token .subtract

/-- The number with the other sign; a decimal is rounded to the precision. -/
def Number.opposite : Number → Number
  | .ratio n d => .ratio (-n) d
  | .decimal v a => .decimal (v.negate precision) a

/-- What a minus sign makes of an expression. -/
def Expr.opposite : Expr → Expr
  | .number x => .number x.opposite
  | e => .binary .multiply (.number Number.minusOne) e

/-! ## Derivations -/

/-- The parts of an expression, from the ones that bind strongest. -/
inductive Level where
  | unit
  | raised
  | signed
  | factor
  | term
  | sum
  deriving DecidableEq

/-- A row is an expression of a level. -/
inductive Derives : Level → Row → Expr → Prop
  | literal (n : Numeral) (inRange : n.InRange) : Derives .unit n.row (.number n.number)
  | variable (name : String) : Derives .unit [.var name] (.var name)
  | sqrt {inner : Row} {e : Expr} (h : Derives .sum inner e) :
      Derives .unit [.sqrt inner] (.sqrt e)
  | parentheses {inner : Row} {e : Expr} (h : Derives .sum inner e) :
      Derives .unit [.parentheses inner] (.parentheses e)
  | fraction {top bottom : Row} {a b : Expr} (ha : Derives .sum top a)
      (hb : Derives .sum bottom b) : Derives .unit [.fraction top bottom] (.binary .divide a b)
  | call (f : NamedFunction) {args : List Row} {es : List Expr} (len : args.length = es.length)
      (h : ∀ p ∈ args.zip es, Derives .sum p.1 p.2) : Derives .unit [.call f args] (.call f es)
  | bare {row : Row} {e : Expr} (h : Derives .unit row e) : Derives .raised row e
  | power {row exponent : Row} {e x : Expr} (h : Derives .raised row e)
      (hx : Derives .sum exponent x) : Derives .raised (row ++ [.power exponent]) (.power e x)
  | signed (k : Nat) {row : Row} {e : Expr} (h : Derives .raised row e) :
      Derives .signed (List.replicate k Item.minus ++ row) (if k % 2 = 1 then e.opposite else e)
  | alone {row : Row} {e : Expr} (h : Derives .signed row e) : Derives .factor row e
  | juxtaposed {row next : Row} {e f : Expr} (h : Derives .signed row e)
      (hn : Derives .factor next f) (starts : StartsFactor next) (ends : Ends row next) :
      Derives .factor (row ++ next) (.binary .multiply e f)
  | single {row : Row} {e : Expr} (h : Derives .factor row e) : Derives .term row e
  | multiplied {op : BinaryOp} {row next : Row} {e f : Expr} (additive : op.isAdditive = false)
      (h : Derives .term row e) (hn : Derives .factor next f) :
      Derives .term (row ++ .token op.token :: next) (.binary op e f)
  | lone {row : Row} {e : Expr} (h : Derives .term row e) : Derives .sum row e
  | added {op : BinaryOp} {row next : Row} {e f : Expr} (additive : op.isAdditive = true)
      (h : Derives .sum row e) (hn : Derives .term next f) :
      Derives .sum (row ++ .token op.token :: next) (.binary op e f)

namespace Derives

variable {row : Row} {e : Expr}

theorem factor_of_raised (h : Derives .raised row e) : Derives .factor row e :=
  .alone (.signed 0 h)

theorem term_of_unit (h : Derives .unit row e) : Derives .term row e :=
  .single (.factor_of_raised (.bare h))

end Derives

/-! ## Failures -/

/-- Behind `row` a unit has to come, and `rest` is what comes. -/
inductive Awaits : Row → Row → Prop
  | start (k : Nat) (rest : Row) : Awaits (List.replicate k Item.minus) rest
  | operator {row : Row} {e : Expr} (op : BinaryOp) (k : Nat) (h : Derives .sum row e)
      (rest : Row) : Awaits (row ++ .token op.token :: List.replicate k Item.minus) rest
  | juxtaposed {row rest : Row} {e : Expr} (h : Derives .sum row e) (starts : StartsFactor rest)
      (ends : Ends row rest) : Awaits row rest

/-- A row is no expression, for the given reason. -/
inductive Fails : Row → UpgradeError → Prop
  | overflow {row rest : Row} {n : Numeral} (h : Awaits row (n.row ++ rest))
      (ends : Ends n.row rest) (outOfRange : ¬ n.InRange) : Fails (row ++ (n.row ++ rest)) .overflow
  | noUnit {row rest : Row} (h : Awaits row rest)
      (none : rest = [] ∨ ∃ op tail, op ≠ .subtract ∧ rest = .token (BinaryOp.token op) :: tail) :
      Fails (row ++ rest) .expectedUnit
  | noBase {row exponent rest : Row} (h : Awaits row (.power exponent :: rest)) :
      Fails (row ++ .power exponent :: rest) .powerMissingBase
  | leftover {row rest : Row} {e : Expr} (h : Derives .sum row e)
      (ends : Ends row (.token .point :: rest)) :
      Fails (row ++ .token .point :: rest) .unexpectedTokensAtEnd
  | inside {row rest inner : Row} {item : Item} {before after : List Row} {k : UpgradeError}
      (h : Awaits row (item :: rest)) (starts : item.startsFactor = true)
      (slots : item.slots = before ++ inner :: after)
      (derived : ∀ r ∈ before, ∃ e, Derives .sum r e) (fails : Fails inner k) :
      Fails (row ++ item :: rest) k
  | inExponent {row exponent rest : Row} {e : Expr} {k : UpgradeError} (h : Derives .sum row e)
      (fails : Fails exponent k) : Fails (row ++ .power exponent :: rest) k

/-! ## Literals at the end of a row -/

theorem openLiteral_append (row next : Row) :
    openLiteral (row ++ next) = next.foldl openLiteral.goOn (openLiteral row) := by
  rw [openLiteral, List.foldl_append, openLiteral]

/-- What stands before an item that is no part of a literal does not matter. -/
theorem openLiteral_append_cons {item : Item} (h : ∀ state, openLiteral.goOn state item = none)
    (row next : Row) : openLiteral (row ++ item :: next) = openLiteral next := by
  rw [openLiteral_append, List.foldl_cons, h, openLiteral]

@[simp] theorem openLiteral_append_operator (row next : Row) (op : BinaryOp) :
    openLiteral (row ++ .token op.token :: next) = openLiteral next :=
  openLiteral_append_cons (fun _ => by cases op <;> rfl) row next

@[simp] theorem openLiteral_append_power (row next exponent : Row) :
    openLiteral (row ++ .power exponent :: next) = openLiteral next :=
  openLiteral_append_cons (fun _ => rfl) row next

@[simp] theorem openLiteral_minuses_append (k : Nat) (row : Row) :
    openLiteral (List.replicate k Item.minus ++ row) = openLiteral row := by
  induction k with
  | zero => rfl
  | succ k ih =>
    rw [List.replicate_succ, List.cons_append, ← List.nil_append (_ :: _)]
    rw [openLiteral_append_cons (fun _ => rfl), ih]

/-- A row that ends before the next one has no part in the literals of that. -/
theorem openLiteral_append_of_ends {row next : Row} (h : Ends row next) (hn : next ≠ []) :
    openLiteral (row ++ next) = openLiteral next := by
  obtain ⟨item, tail, rfl⟩ := List.exists_cons_of_ne_nil hn
  have hstep : openLiteral.goOn (openLiteral row) item = openLiteral.goOn none item := by
    have hc : Item.continues (openLiteral row) item = false := h
    unfold openLiteral.goOn
    split
    · cases ho : openLiteral row with
      | none => rfl
      | some pointed => simp [ho, Item.continues] at hc
    · rfl
    · rfl
  rw [openLiteral_append, List.foldl_cons, hstep, openLiteral, List.foldl_cons]

/-- Whether the last literal ends depends on the row only through that literal. -/
theorem Ends.congr {row row' : Row} (h : openLiteral row = openLiteral row') {rest : Row}
    (he : Ends row rest) : Ends row' rest := by
  rw [Ends, ← h]
  exact he

theorem Ends.of_openLiteral_eq_none {row : Row} (h : openLiteral row = none) (rest : Row) :
    Ends row rest := by
  rw [Ends, h]
  cases rest <;> rfl

@[simp] theorem ends_nil (row : Row) : Ends row [] := rfl

/-- A power is no part of a literal. -/
theorem Ends.of_power (row exponent rest : Row) : Ends row (.power exponent :: rest) := by
  unfold Ends
  rcases openLiteral row with _ | _ | _ <;> rfl

/-- An operator is no part of a literal. -/
theorem Ends.of_operator (row : Row) (op : BinaryOp) (rest : Row) :
    Ends row (.token op.token :: rest) := by
  unfold Ends
  rcases openLiteral row with _ | _ | _ <;> cases op <;> rfl

/-- Only the next item counts. -/
theorem ends_append_iff {row next : Row} (hn : next ≠ []) (rest : Row) :
    Ends row (next ++ rest) ↔ Ends row next := by
  obtain ⟨item, tail, rfl⟩ := List.exists_cons_of_ne_nil hn
  exact Iff.rfl

theorem StartsFactor.ne_nil {row : Row} (h : StartsFactor row) : row ≠ [] := by
  rintro rfl
  cases h

/-- Whether a factor starts can be seen from the first item. -/
theorem startsFactor_append_iff {row : Row} (hn : row ≠ []) (rest : Row) :
    StartsFactor (row ++ rest) ↔ StartsFactor row := by
  obtain ⟨item, tail, rfl⟩ := List.exists_cons_of_ne_nil hn
  exact Iff.rfl

theorem StartsFactor.append {row : Row} (h : StartsFactor row) (rest : Row) :
    StartsFactor (row ++ rest) :=
  (startsFactor_append_iff h.ne_nil rest).mpr h

end Mathpad
