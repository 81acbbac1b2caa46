import Mathpad.Proofs.Nearness
import Mathpad.Proofs.TextFaults
import Mathpad.Proofs.TypedTerms

/-!
# The expressions that come from text

What is read from a text has numbers of a simple kind only: whole numbers, and decimals
that are never a zero with a sign. And every call has as many arguments as its function
takes. Showing the order of operations keeps both.
-/
set_option autoImplicit false

namespace Mathpad

/-! ## Numbers -/

/-- A number as it stands in an expression that was read. -/
def Number.Literal : Number → Prop
  | .ratio n d => isWord n = true ∧ d = 1
  | .decimal v _ => v.negative = true → v.digits ≠ 0

/-- The number of a literal is one. -/
theorem Numeral.number_literal (n : Numeral) : n.number.Literal := by
  unfold number
  by_cases hword : n.fraction = none ∧ (n.mantissa : Int) ≤ maxWord
  · rw [if_pos hword]
    refine ⟨?_, rfl⟩
    simpa [isWord, maxWord] using hword.2
  · rw [if_neg hword]
    exact fun h => absurd h Bool.false_ne_true

/-- The other sign makes no zero with a sign. -/
theorem Numeral.opposite_literal (n : Numeral) : n.number.opposite.Literal := by
  unfold number
  by_cases hword : n.fraction = none ∧ (n.mantissa : Int) ≤ maxWord
  · have hm := hword.2
    rw [maxWord] at hm
    rw [if_pos hword]
    refine ⟨?_, rfl⟩
    simp [isWord, maxWord]
    omega
  · rw [if_neg hword, Number.opposite, Decimal.negate]
    by_cases hzero : n.mantissa = 0
    · rw [if_pos hzero]
      exact fun h => absurd h Bool.false_ne_true
    · rw [if_neg hzero]
      exact fun _ => Decimal.digits_round_ne_zero (by decide) hzero

/-! ## Expressions -/

namespace Expr

/-- A number is a literal with or without a sign, and a call has the arguments that it needs. -/
def ReadHere : Expr → Prop
  | number x => x.Literal
  | call f es => es.length = f.arity
  | _ => True

/-- An expression that could be read from a text. -/
def Readable (e : Expr) : Prop := e.Everywhere ReadHere

/-- Parentheses do not make a difference to whether an expression can be read. -/
theorem readable_parentheses {e : Expr} : (parentheses e).Readable ↔ e.Readable := by
  rw [Readable, everywhere_iff]
  simp [operands, ReadHere, Readable]

/-- An operation can be read if and only if both operands can. -/
theorem readable_binary {op : BinaryOp} {a b : Expr} :
    (binary op a b).Readable ↔ a.Readable ∧ b.Readable := by
  rw [Readable, everywhere_iff]
  simp [operands, ReadHere, Readable]

/-- Putting an operand in parentheses leaves it one that can be read. -/
theorem Readable.wrapIf {e : Expr} (h : e.Readable) (wanted : Bool) : (e.wrapIf wanted).Readable := by
  unfold Expr.wrapIf
  split
  · exact readable_parentheses.mpr h
  · exact h

/-- Parentheses that show the order of operations leave an expression readable. -/
theorem Readable.disambiguate {e : Expr} (h : e.Readable) : e.disambiguate.Readable := by
  cases e with
  | binary op a b =>
    obtain ⟨ha, hb⟩ := readable_binary.mp h
    rw [Expr.disambiguate]
    by_cases hop : op.isAdditive = true
    · rw [if_pos hop]
      exact readable_binary.mpr ⟨ha, hb.wrapIf _⟩
    · rw [if_neg hop]
      exact readable_binary.mpr ⟨ha.wrapIf _, hb.wrapIf _⟩
  | _ => exact h

end Expr

open Mathpad.Expr

/-- A call has as many arguments as its function takes. -/
def Item.CompleteHere : Item → Prop
  | call f args => args.length = f.arity
  | _ => True

/-- The calls that can be typed have their arguments, everywhere in an item. -/
theorem Item.Typed.complete {item : Item} (h : item.Typed) : item.Everywhere CompleteHere := by
  induction h with
  | @intro item here _ ih =>
    refine ⟨?_, ih⟩
    cases item with
    | call f args => exact here
    | _ => trivial

/-- The calls that can be typed have their arguments, everywhere in a row. -/
theorem Row.Typed.complete {row : Row} (h : row.Typed) : row.Everywhere Item.CompleteHere :=
  fun item hi => (h item hi).complete

/-- The expression is neither a number nor a call. -/
def Expr.IsComposed : Expr → Prop
  | number _ | call _ _ => False
  | _ => True

/-- What is true of literals and their opposites, of calls and of all that is neither is true
everywhere in an expression that a row derives. -/
theorem Derives.everywhere {H : Expr → Prop} {C : Item → Prop}
    (hliteral : ∀ n : Numeral, n.InRange → H (number n.number) ∧ H (number n.number.opposite))
    (hminus : H (number Number.minusOne)) (hcomposed : ∀ e : Expr, e.IsComposed → H e)
    (hcall : ∀ f (args : List Row) es, C (.call f args) → es.length = args.length →
      H (Expr.call f es))
    {l : Level} {row : Row} {e : Expr} (h : Derives l row e) (ht : row.Everywhere C) :
    e.Everywhere H := by
  have hleaf : ∀ {e : Expr}, e.operands = [] → H e → e.Everywhere H :=
    fun hnone he => ⟨he, by simp [hnone]⟩
  have hbinary : ∀ {op a b}, a.Everywhere H → b.Everywhere H → (Expr.binary op a b).Everywhere H :=
    fun ha hb => ⟨hcomposed _ trivial, by simp [operands, ha, hb]⟩
  induction h with
  | literal n inRange => exact hleaf rfl (hliteral n inRange).1
  | «variable» name => exact hleaf rfl (hcomposed _ trivial)
  | sqrt _ ih | parentheses _ ih =>
    have hinner := ih (ht.inside (List.mem_singleton_self _) (by simp [Item.slots]))
    exact ⟨hcomposed _ trivial, by simp [operands, hinner]⟩
  | fraction _ _ iha ihb =>
    exact hbinary (iha (ht.inside (List.mem_singleton_self _) (by simp [Item.slots])))
      (ihb (ht.inside (List.mem_singleton_self _) (by simp [Item.slots])))
  | @call f args es len _ ih =>
    have hitem := (Item.everywhere_iff.mp (ht _ (List.mem_singleton_self _))).1
    refine ⟨hcall f args es hitem len.symm, fun e he => ?_⟩
    obtain ⟨row, hrow, hpair⟩ := exists_row_of_argument len he
    exact ih _ hpair (ht.inside (List.mem_singleton_self _) hrow)
  | bare _ ih => exact ih ht
  | power _ _ ihb ihe =>
    have hb := ihb fun i hi => ht i (by simp [hi])
    have he := ihe (ht.inside (List.mem_append_right _ (List.mem_singleton_self _))
      (by simp [Item.slots]))
    exact ⟨hcomposed _ trivial, by simp [operands, hb, he]⟩
  | @signed k row e h ih =>
    have he := ih fun i hi => ht i (by simp [hi])
    -- an odd number of minuses negates a literal, and multiplies everything else by minus one
    by_cases hodd : k % 2 = 1
    · rw [if_pos hodd]
      cases e with
      | number x =>
        obtain ⟨n, inRange, rfl⟩ := h.number_eq (Or.inr rfl) rfl
        exact hleaf rfl (hliteral n inRange).2
      | _ => exact hbinary (hleaf rfl hminus) he
    · rw [if_neg hodd]
      exact he
  | alone _ ih | single _ ih | lone _ ih => exact ih ht
  | juxtaposed _ _ _ _ iha ihb | multiplied _ _ _ iha ihb | added _ _ _ iha ihb =>
    exact hbinary (iha fun i hi => ht i (by simp [hi])) (ihb fun i hi => ht i (by simp [hi]))

/-- A row whose calls are complete derives what can be read. -/
theorem Derives.readable {l : Level} {row : Row} {e : Expr} (h : Derives l row e)
    (ht : row.Everywhere Item.CompleteHere) : e.Readable := by
  refine h.everywhere (fun n _ => ⟨n.number_literal, n.opposite_literal⟩) ⟨by decide, rfl⟩
    (fun e he => ?_) (fun f args es hitem hlen => hlen.trans hitem) ht
  cases e with
  | number | call => exact he.elim
  | _ => exact trivial

/-- The fault is something about a row of items. -/
def Fault.IsUpgrade (f : Fault) : Prop := ∃ e, f = .upgrade e

/-- A text is read as an expression, which then is readable and makes a term that is made of what
can be typed; or it is at fault, or the row that it spells. -/
theorem Expr.ofText_meets (s : String) :
    Meets (ofText s) (fun e => e.Readable ∧ Term.typed.In e.toTerm)
      fun f => f.IsInput ∨ f.IsUpgrade := by
  have hrow : Meets (Row.ofText s) Row.Typed fun f => f.IsInput ∨ f.IsUpgrade :=
    ((Row.ofText_typed s).and (Row.ofText_isInput s)).mono (fun _ h => h.1) fun _ h => Or.inl h.2
  refine hrow.bind fun row ht => (understood row).mono (fun e he => ?_) ?_
  · exact ⟨he.readable ht.complete, he.in_typed ht⟩
  · rintro _ ⟨k, rfl, -⟩
    exact Or.inr ⟨k, rfl⟩

end Mathpad
