import Mathlib.Algebra.BigOperators.Group.List.Basic
import Mathlib.Algebra.Ring.Defs
import Mathpad.Proofs.Rules
import Mathpad.Term.OfExpr

/-!
# Sums and products as operations

What the two operations are in a commutative semiring, and what flattening and sorting
do to terms that are sums or products, said once for both.
-/
set_option autoImplicit false

namespace Mathpad

namespace Operation

variable {R : Type} [CommSemiring R]

/-- Combines two values by the operation. -/
def act : Operation → R → R → R
  | product => (· * ·)
  | sum => (· + ·)

/-- The value that changes nothing. -/
def unit : Operation → R
  | product => 1
  | sum => 0

/-- Combines some values by the operation. -/
def fold : Operation → List R → R
  | product => List.prod
  | sum => List.sum

@[simp] theorem fold_cons (op : Operation) (x : R) (xs : List R) :
    op.fold (x :: xs) = op.act x (op.fold xs) := by
  cases op with
  | product => exact List.prod_cons
  | sum => exact List.sum_cons

/-- The value without any members. -/
theorem fold_nil (op : Operation) : op.fold ([] : List R) = op.unit := by
  cases op with
  | product => exact List.prod_nil
  | sum => exact List.sum_nil

/-- The values of two lists are combined one list after the other. -/
theorem fold_append (op : Operation) (xs ys : List R) :
    op.fold (xs ++ ys) = op.act (op.fold xs) (op.fold ys) := by
  cases op with
  | product => exact List.prod_append
  | sum => exact List.sum_append

/-- Values are combined in any order. -/
theorem fold_perm (op : Operation) {xs ys : List R} (h : xs.Perm ys) :
    op.fold xs = op.fold ys := by
  cases op with
  | product => exact h.prod_eq
  | sum => exact h.sum_eq

/-- Values are combined in any grouping. -/
theorem act_assoc (op : Operation) (a b c : R) :
    op.act (op.act a b) c = op.act a (op.act b c) := by
  cases op with
  | product => exact mul_assoc a b c
  | sum => exact add_assoc a b c

theorem act_comm (op : Operation) (a b : R) : op.act a b = op.act b a := by
  cases op with
  | product => exact mul_comm a b
  | sum => exact add_comm a b

theorem act_unit (op : Operation) (a : R) : op.act op.unit a = a := by
  cases op with
  | product => exact one_mul a
  | sum => exact zero_add a

theorem act_unit_right (op : Operation) (a : R) : op.act a op.unit = a := by
  rw [act_comm, act_unit]

end Operation

/-! ## Flattening and sorting -/

namespace Term

theorem flattenAll_eq_map (ts : List Term) : flattenAll ts = ts.map flatten := by
  induction ts with
  | nil => rfl
  | cons t ts ih => rw [flattenAll, ih, List.map_cons]

theorem flatten_apply (op : Operation) (ts : List Term) :
    (op.apply ts).flatten = op.apply ((ts.map flatten).flatMap op.lift) := by
  have hfactors : factors = Operation.product.lift := funext Operation.factors_eq_lift
  have hsummands : summands = Operation.sum.lift := by
    funext t
    cases t <;> rfl
  rw [← flattenAll_eq_map]
  cases op with
  | product =>
    change product ((flattenAll ts).flatMap factors) = _
    rw [hfactors]
    rfl
  | sum =>
    change sum ((flattenAll ts).flatMap summands) = _
    rw [hsummands]
    rfl

theorem sortAll_eq_mapM (ts : List Term) : sortAll ts = ts.mapM sort := by
  induction ts with
  | nil => rfl
  | cons t ts ih => rw [sortAll, ih, List.mapM_cons]

theorem sort_apply (op : Operation) (ts : List Term) :
    (op.apply ts).sort = do return op.apply (← sortBy order (← ts.mapM sort)) := by
  rw [← sortAll_eq_mapM]
  cases op <;> rfl

end Term

theorem Expr.toTerms_eq_map (es : List Expr) : toTerms es = es.map toTerm := by
  induction es with
  | nil => rfl
  | cons e es ih => rw [toTerms, ih, List.map_cons]

end Mathpad
