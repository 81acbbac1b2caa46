import Mathpad.Expr.Basic
import Mathpad.Item.Basic
import Mathpad.Proofs.Rules

/-!
# Everywhere in a term, an expression and an item

A property of single nodes, and the terms and the expressions all of whose nodes have it;
likewise a property of single items, and the items which have it together with all that is
inside of them.
-/
set_option autoImplicit false

namespace Mathpad

namespace Term

/-- The terms that a term is made up of directly. -/
def parts : Term → List Term
  | number _ | var _ => []
  | product ts | sum ts | call _ ts => ts
  | power b e => [b, e]

/-- `P` is true of a term, of its parts, of their parts and so on. -/
inductive Everywhere (P : Term → Prop) : Term → Prop where
  | intro {t : Term} (here : P t) (inside : ∀ u ∈ t.parts, Everywhere P u) : Everywhere P t

section Everywhere

variable {P Q : Term → Prop} {t : Term}

theorem Everywhere.here (h : Everywhere P t) : P t := by
  cases h with
  | intro here _ => exact here

/-- What is true everywhere in a term is true everywhere in its parts. -/
theorem Everywhere.inside (h : Everywhere P t) : ∀ u ∈ t.parts, Everywhere P u := by
  cases h with
  | intro _ inside => exact inside

/-- What is true everywhere may be replaced by what follows from it. -/
theorem Everywhere.imp (h : Everywhere P t) (hPQ : ∀ u, P u → Q u) : Everywhere Q t := by
  induction h with
  | intro here _ ih => exact ⟨hPQ _ here, ih⟩

theorem Everywhere.and (hP : Everywhere P t) (hQ : Everywhere Q t) :
    Everywhere (fun u => P u ∧ Q u) t := by
  induction hP with
  | intro here _ ih => exact ⟨⟨here, hQ.here⟩, fun u hu => ih u hu (hQ.inside u hu)⟩

/-- What is true everywhere in a term is true everywhere in all of its parts. -/
theorem Everywhere.nested (h : Everywhere P t) : Everywhere (Everywhere P) t := by
  induction h with
  | intro here inside ih => exact ⟨⟨here, inside⟩, ih⟩

theorem Everywhere.number {x : Number} (h : P (number x)) : Everywhere P (number x) :=
  ⟨h, fun u hu => by simp [parts] at hu⟩

theorem parts_apply (op : Operation) (ts : List Term) : (op.apply ts).parts = ts := by
  cases op <;> rfl

/-- To be true everywhere in a power, a property has to be true of it, and everywhere in base and
exponent. -/
theorem Everywhere.power {b e : Term} (h : P (power b e)) (hb : Everywhere P b)
    (he : Everywhere P e) : Everywhere P (power b e) := by
  refine ⟨h, fun u hu => ?_⟩
  rcases List.mem_cons.mp hu with rfl | hu
  · exact hb
  · obtain rfl := List.mem_singleton.mp hu
    exact he

theorem Everywhere.base {b e : Term} (h : Everywhere P (Term.power b e)) : Everywhere P b :=
  h.inside b (by simp [parts])

theorem Everywhere.exponent {b e : Term} (h : Everywhere P (Term.power b e)) :
    Everywhere P e :=
  h.inside e (by simp [parts])

theorem Everywhere.apply (op : Operation) {ts : List Term} (h : P (op.apply ts))
    (hts : ∀ t ∈ ts, Everywhere P t) : Everywhere P (op.apply ts) :=
  ⟨h, by rw [parts_apply]; exact hts⟩

theorem Everywhere.members (op : Operation) {ts : List Term}
    (h : Everywhere P (op.apply ts)) : ∀ t ∈ ts, Everywhere P t := by
  have hinside := h.inside
  rw [parts_apply] at hinside
  exact hinside

end Everywhere

end Term

namespace Expr

/-- The expressions that an expression is made up of directly. -/
def operands : Expr → List Expr
  | number _ | var _ => []
  | sqrt e | parentheses e => [e]
  | power b e => [b, e]
  | binary _ a b => [a, b]
  | call _ es => es

/-- `P` is true of an expression, of its operands, of their operands and so on. -/
inductive Everywhere (P : Expr → Prop) : Expr → Prop where
  | intro {e : Expr} (here : P e) (inside : ∀ u ∈ e.operands, Everywhere P u) : Everywhere P e

section Expressions

variable {P : Expr → Prop} {e : Expr}

/-- A property is true everywhere in an expression if and only if it is true of it and everywhere in
its operands. -/
theorem everywhere_iff :
    e.Everywhere P ↔ P e ∧ ∀ u ∈ e.operands, u.Everywhere P := by
  constructor
  · rintro ⟨here, inside⟩
    exact ⟨here, inside⟩
  · rintro ⟨here, inside⟩
    exact ⟨here, inside⟩

/-- What is true everywhere in an expression may be replaced by what follows from it. -/
theorem Everywhere.imp {Q : Expr → Prop} (h : e.Everywhere P) (hPQ : ∀ u, P u → Q u) :
    e.Everywhere Q := by
  induction h with
  | intro here _ ih => exact ⟨hPQ _ here, ih⟩

end Expressions

end Expr

/-! ## Rows inside items -/

theorem Item.sizeOf_slot_lt {item : Item} {inner : Row} (h : inner ∈ item.slots) :
    sizeOf inner < sizeOf item := by
  cases item with
  | token t => cases h
  | call f args =>
    have := List.sizeOf_lt_of_mem (show inner ∈ args from h)
    simp only [Item.call.sizeOf_spec]
    omega
  | sqrt row | parentheses row | power row =>
    rw [show inner = row from List.mem_singleton.mp h]
    simp
  | fraction top bottom =>
    rcases List.mem_pair.mp h with rfl | rfl <;> simp only [Item.fraction.sizeOf_spec] <;> omega

/-- What is true of a row as soon as it is true of the rows inside its items, is true of all rows. -/
@[elab_as_elim]
theorem Row.induction_inside {motive : Row → Prop}
    (inside : ∀ row : Row, (∀ item ∈ row, ∀ inner ∈ item.slots, motive inner) → motive row)
    (row : Row) : motive row := by
  induction hn : sizeOf row using Nat.strong_induction_on generalizing row with
  | _ n ih =>
  refine inside row fun item hitem inner hinner => ih _ ?_ inner rfl
  have houter : sizeOf item < sizeOf row := List.sizeOf_lt_of_mem hitem
  have hless := Item.sizeOf_slot_lt hinner
  omega

namespace Item

/-- `P` is true of an item, of the items in its rows, of those in theirs and so on. -/
inductive Everywhere (P : Item → Prop) : Item → Prop where
  | intro {item : Item} (here : P item)
      (inside : ∀ row ∈ item.slots, ∀ i ∈ row, Everywhere P i) : Everywhere P item

end Item

/-- `P` is true everywhere in a row. -/
def Row.Everywhere (P : Item → Prop) (row : Row) : Prop := ∀ item ∈ row, item.Everywhere P

section Items

variable {P : Item → Prop}

@[simp] theorem Row.everywhere_nil : Row.Everywhere P [] := by simp [Row.Everywhere]

@[simp] theorem Row.everywhere_cons {item : Item} {row : Row} :
    Row.Everywhere P (item :: row) ↔ item.Everywhere P ∧ row.Everywhere P := by
  simp [Row.Everywhere]

/-- A property is true everywhere in an item if and only if it is true of it and everywhere in its
rows. -/
theorem Item.everywhere_iff {item : Item} :
    item.Everywhere P ↔ P item ∧ ∀ row ∈ item.slots, row.Everywhere P := by
  constructor
  · rintro ⟨here, inside⟩
    exact ⟨here, inside⟩
  · rintro ⟨here, inside⟩
    exact ⟨here, inside⟩

theorem Item.everywhere_token {t : Token} (h : P (token t)) : (token t).Everywhere P :=
  ⟨h, fun _ hrow => nomatch hrow⟩

/-- What is true of all items is true everywhere in a row. -/
theorem Row.everywhere_of_forall (h : ∀ item, P item) (row : Row) : row.Everywhere P := by
  induction row using Row.induction_inside with
  | inside row ih => exact fun item hi => ⟨h item, fun inner hinner => ih item hi inner hinner⟩

/-- What is true everywhere in a row is true in the rows inside its items. -/
theorem Row.Everywhere.inside {row inner : Row} {item : Item} (h : row.Everywhere P)
    (hitem : item ∈ row) (hinner : inner ∈ item.slots) : inner.Everywhere P :=
  (Item.everywhere_iff.mp (h item hitem)).2 inner hinner

/-- What is true everywhere in an item may be replaced by what follows from it. -/
theorem Item.Everywhere.imp {Q : Item → Prop} {item : Item} (h : item.Everywhere P)
    (hPQ : ∀ i, P i → Q i) : item.Everywhere Q := by
  induction h with
  | intro here _ ih => exact ⟨hPQ _ here, ih⟩

/-- Two properties that are true everywhere in an item are so together. -/
theorem Item.Everywhere.and {Q : Item → Prop} {item : Item} (hP : item.Everywhere P)
    (hQ : item.Everywhere Q) : item.Everywhere fun i => P i ∧ Q i := by
  induction hP with
  | intro here _ ih =>
    obtain ⟨hQhere, hQinside⟩ := hQ
    exact ⟨⟨here, hQhere⟩, fun row hrow i hi => ih row hrow i hi (hQinside row hrow i hi)⟩

/-- What is true everywhere in a row may be replaced by what follows from it. -/
theorem Row.Everywhere.imp {Q : Item → Prop} {row : Row} (h : row.Everywhere P)
    (hPQ : ∀ i, P i → Q i) : row.Everywhere Q :=
  fun item hi => (h item hi).imp hPQ

end Items

end Mathpad
