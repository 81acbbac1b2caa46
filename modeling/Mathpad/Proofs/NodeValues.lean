import Mathlib.Data.Rat.Cast.Order
import Mathpad.NamedFunction
import Mathpad.Term.Reduce

/-!
# The value of a term, node by node

What a decimal and a number are worth, and what a term is worth when each of its nodes is
worked out with checked arithmetic, for given values of its variables.
-/
set_option autoImplicit false

namespace Mathpad

/-! ## Numbers -/

/-- The value of a decimal. -/
def Decimal.value (v : Decimal) : ℚ := v.signedDigits * 10 ^ v.exponent

theorem Decimal.value_eq (negative : Bool) (digits : Nat) (e : Int) :
    (⟨negative, digits, e⟩ : Decimal).value = (if negative then -1 else 1) * digits * 10 ^ e := by
  cases negative <;> simp [value, signedDigits]

/-- The value of a number. -/
def Number.value : Number → ℚ
  | ratio n d => n / d
  | decimal v _ => v.value

/-! ## Operations -/

namespace Operation

/-- Combines values from left to right; without any there is the neutral one. -/
def total (op : Operation) : List Number → Outcome Number
  | [] => .ok op.neutral
  | x :: xs => xs.foldlM op.combine x

/-- One value more is combined with the total of those before it. -/
theorem total_append (op : Operation) {xs : List Number} (h : xs ≠ []) (y : Number) :
    op.total (xs ++ [y]) = (do op.combine (← op.total xs) y) := by
  obtain ⟨x, xs, rfl⟩ := List.exists_cons_of_ne_nil h
  rw [List.cons_append, total, total, List.foldlM_append]
  simp only [List.foldlM_cons, List.foldlM_nil, bind_pure]

end Operation

/-! ## Terms -/

namespace Term

mutual

/-- The value of a term node by node, given what the constants count as and the values of the
variables. -/
def eval (settings : EvalSettings) (constant : Number → Outcome Number) (ρ : String → Number) :
    Term → Outcome Number
  | number x => constant x
  | var name => .ok (ρ name)
  | product ts => do Operation.product.total (← evalAll settings constant ρ ts)
  | sum ts => do Operation.sum.total (← evalAll settings constant ρ ts)
  | power b e => do
    let x ← b.eval settings constant ρ
    x.pow (← e.eval settings constant ρ)
  | call f ts => do f.eval (← evalAll settings constant ρ ts) settings

/-- The values of terms, in their order. -/
def evalAll (settings : EvalSettings) (constant : Number → Outcome Number) (ρ : String → Number) :
    List Term → Outcome (List Number)
  | [] => .ok []
  | t :: ts => do
    let x ← t.eval settings constant ρ
    return x :: (← evalAll settings constant ρ ts)

end

/-- Arguments are evaluated one by one. -/
theorem evalAll_eq_mapM (settings : EvalSettings) (constant : Number → Outcome Number)
    (ρ : String → Number) (ts : List Term) :
    evalAll settings constant ρ ts = ts.mapM (eval settings constant ρ) := by
  induction ts with
  | nil => rfl
  | cons t ts ih => rw [evalAll, ih, List.mapM_cons]

theorem eval_apply (settings : EvalSettings) (constant : Number → Outcome Number)
    (ρ : String → Number) (op : Operation) (ts : List Term) :
    (op.apply ts).eval settings constant ρ =
      (do op.total (← ts.mapM (eval settings constant ρ))) := by
  rw [← evalAll_eq_mapM]
  cases op <;> rfl

end Term
end Mathpad
